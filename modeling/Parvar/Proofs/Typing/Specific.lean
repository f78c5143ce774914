import Parvar.Proofs.Ty.Code
import Parvar.Proofs.Typing.Fit
import Parvar.Proofs.Typing.Standard

/-!
Which of several overloads a call is to. The first that accepts the arguments is called, and they stand in the
order of the specificities of their parameters. That order follows the subtypes but for sets, which come after
plain types although a fixed set may stand for an array.
-/

namespace Parvar

open Model Library

section Bases

variable {b c : Base}

theorem Base.breadth_of_sub (h : b.sub c) : b.breadth < c.breadth ∨ b = c := by
  cases b <;> cases c <;> simp_all [sub, breadth]

theorem Base.breadth_bot (b : Base) : bot.breadth < b.breadth ∨ bot = b := by
  cases b <;> simp [breadth]

theorem Base.breadth_top (h : b ≠ unknown) : b.breadth < top.breadth ∨ b = top := by
  cases b <;> simp_all [breadth]

end Bases

namespace Ty

variable {t u : Ty}

-- Two types, the first of which is more specific where it is narrower: no fixed type goes into one without
-- elements, and a set only into a plain type that is wider otherwise.
structure Ordered (t u : Ty) : Prop where
  filled : u.isPar → u.base ≠ .bot
  known : u.base = .top → t.base ≠ .unknown
  set : t.inst = u.inst → t.base = u.base → t.isSet → u.isSet
  rank : u.dim = -1 → -1 ≤ t.dim ∧ t.dim < 0x7fffffff

-- The first component to decide which of two types is more specific.
inductive Narrows (t u : Ty) : Prop
  | inst (ht : t.isPar) (hu : ¬u.isPar)
  | base (hi : t.inst = u.inst) (h : t.base.breadth < u.base.breadth)
  | rest (hi : t.inst = u.inst) (hb : t.base = u.base) (hs : t.isSet → u.isSet) (ho : t.isOpt → u.isOpt)
      (hd : t.dim = u.dim ∨ t.dim ≠ 0 ∧ u.dim = -1)

-- All ways for one type to stand for another.
theorem sub_cases (hs : t.sub u) : (t.isPar ∨ t.inst = u.inst) ∧
    (t.isPar ∧ u.base = .bot ∨ (t.isOpt → u.isOpt) ∧
      (t.isSet ∧ (t.base = .bot ∨ t.base.sub u.base ∨ u.base = .top) ∧ ¬u.isSet ∨
        (t.dim = u.dim ∨ t.dim ≠ 0 ∧ u.dim = -1) ∧
          (t.base.sub u.base ∧ t.isSet = u.isSet ∨ t.base = .bot ∧ (t.isSet → u.isSet) ∨
            u.base = .top ∧ (u.isSet → t.isSet)))) := by
  have hinst : (t.isPar || u.isVar) → t.isPar ∨ t.inst = u.inst := by
    unfold isPar isVar
    cases t.inst <;> cases u.inst <;> simp
  simp only [sub, setAsArray, dimFits, elemSub, instFits, optFits] at hs
  grind

theorem Ordered.narrows (h : t.Ordered u) (hs : t.sub u) : t.Narrows u := by
  obtain ⟨hfilled, hknown, hset, -⟩ := h
  obtain ⟨hinst, hs⟩ := sub_cases hs
  by_cases hi : t.inst = u.inst
  · rcases hs with ⟨hp, hu⟩ | ⟨hopt, ⟨ht, hb, hu⟩ | ⟨hd, ⟨hb, heq⟩ | ⟨hb, hto⟩ | ⟨hb, hof⟩⟩⟩
    · exact absurd hu (hfilled (by rwa [isPar, ← hi]))
    · have hb : t.base.breadth < u.base.breadth ∨ t.base = u.base := by
        rcases hb with hb | hb | hb
        · exact hb ▸ Base.breadth_bot u.base
        · exact Base.breadth_of_sub hb
        · exact hb ▸ Base.breadth_top (hknown hb)
      exact hb.elim (.base hi) fun hb => absurd (hset hi hb ht) hu
    · exact (Base.breadth_of_sub hb).elim (.base hi) fun hb => .rest hi hb (fun h => heq ▸ h) hopt hd
    · exact (Base.breadth_bot u.base).elim (fun h => .base hi (hb ▸ h)) fun h => .rest hi (hb.trans h) hto hopt hd
    · refine (Base.breadth_top (hknown hb)).elim (fun h => .base hi (hb ▸ h)) fun h => ?_
      have hb := h.trans hb.symm
      exact .rest hi hb (hset hi hb) hopt hd
  · have hp := hinst.resolve_right hi
    refine .inst hp fun hu => hi ?_
    simp only [isPar, decide_eq_true_eq] at hp hu
    rw [hp, hu]

theorem Alike.sub (h : t.Alike u) : u.sub t := by
  obtain ⟨hi, hb, hs, ho, hd⟩ := h
  simp [Ty.sub, dimFits, elemSub, instFits, optFits, hi, hb, hs, ho, hd, Base.sub_self]

-- The narrower of two types is the more specific, whatever comes after them, or they are alike.
theorem Ordered.specificity_lt (h : t.Ordered u) (hs : t.sub u) :
    (∀ xs ys, t.specificity ++ xs < u.specificity ++ ys) ∨ t.specificity = u.specificity ∧ u.sub t := by
  cases h.narrows hs with
  | inst ht hu => exact .inl fun xs ys => by simp [specificity, List.cons_lt_cons_iff, ht, hu]
  | base hi hb => exact .inl fun xs ys => by simp [specificity, List.cons_lt_cons_iff, isPar, hi, hb]
  | rest hi hb hset ho hd =>
    by_cases hseteq : t.isSet = u.isSet
    · by_cases hopteq : t.isOpt = u.isOpt
      · by_cases hdimeq : t.dim = u.dim
        · refine .inr ⟨?_, Alike.sub ⟨hi, hb, hseteq, hopteq, hdimeq⟩⟩
          simp [specificity, isPar, hi, hb, hseteq, hopteq, hdimeq]
        · have hany : u.dim = -1 := (hd.resolve_left hdimeq).2
          have hrank := h.rank hany
          have hlt : (if t.dim < 0 then 0x7fffffff else t.dim) < if u.dim < 0 then 0x7fffffff else u.dim := by
            rw [if_neg (by omega), if_pos (by omega)]
            exact hrank.2
          exact .inl fun xs ys => by simp [specificity, List.cons_lt_cons_iff, isPar, hi, hb, hseteq, hopteq, hlt]
      · have hlt : t.isOpt.toInt < u.isOpt.toInt := by
          revert ho hopteq
          cases t.isOpt <;> cases u.isOpt <;> decide
        exact .inl fun xs ys => by simp [specificity, List.cons_lt_cons_iff, isPar, hi, hb, hseteq, hlt]
    · have hlt : t.isSet.toInt < u.isSet.toInt := by
        revert hset hseteq
        cases t.isSet <;> cases u.isSet <;> decide
      exact .inl fun xs ys => by simp [specificity, List.cons_lt_cons_iff, isPar, hi, hb, hlt]

-- The first parameter that is narrower decides.
theorem specificity_lt_or_sub {ts us : List Ty} (hs : List.Forall₂ (fun t u => t.sub u) ts us)
    (h : List.Forall₂ Ordered ts us) :
    ts.flatMap specificity < us.flatMap specificity ∨ List.Forall₂ (fun u t => u.sub t) us ts := by
  induction hs with
  | nil => exact .inr .nil
  | cons hs _ ih =>
    obtain ⟨h, hrest⟩ := List.forall₂_cons.mp h
    rcases h.specificity_lt hs with hlt | ⟨heq, hback⟩
    · exact .inl (hlt _ _)
    · refine (ih hrest).imp (fun hlt => ?_) (.cons hback)
      rw [List.flatMap_cons, List.flatMap_cons, heq]
      simpa [specificity, List.cons_lt_cons_iff] using hlt

end Ty

section Overloads

variable {m : Model} {f g : FuncId} {name : String} {args : List Ty}

-- Every parameter of the one function stands in relation to the other's in its place.
def Model.Params (m : Model) (R : Ty → Ty → Prop) (g f : FuncId) : Prop :=
  List.Forall₂ R ((m.func g).params.map m.paramTy) ((m.func f).params.map m.paramTy)

theorem Model.specificity_cons (m : Model) (f : FuncId) : m.specificity f =
    (((m.func f).params.map m.paramTy).length : Int) :: ((m.func f).params.map m.paramTy).flatMap Ty.specificity := by
  rw [specificity, List.length_map, List.flatMap_map]

-- An overload is not called where one with narrower parameters accepts the arguments too.
theorem match_most_specific (hg : m.sortOverloads.Overload name g) (hacc : m.sortOverloads.accepts g args)
    (hsub : m.sortOverloads.Params (fun t u => t.sub u) g f)
    (hstrict : ¬m.sortOverloads.Params (fun t u => t.sub u) f g) (hord : m.sortOverloads.Params Ty.Ordered g f) :
    m.sortOverloads.matchOverload? name args ≠ some f := by
  intro h
  have hle := (sorted_sortOverloads m).precedes h hg hacc
  rw [specificity_cons, specificity_cons _ g, ← hsub.length_eq] at hle
  have hlt := (Ty.specificity_lt_or_sub hsub hord).resolve_right hstrict
  exact hle (List.cons_lt_cons_iff.mpr (.inr ⟨rfl, hlt⟩))

end Overloads

section Samples

-- Two functions of one name, with a parameter each.
def overloadPair (t u : Ty) : Model where
  decls := #[{ name := "x", ti := ⟨0⟩ }, { name := "y", ti := ⟨1⟩ }]
  typeInsts := #[{ ty := t }, { ty := u }, { ty := .parInt }]
  funcs := #[{ name := "f", params := [⟨0⟩], ret := ⟨2⟩ }, { name := "f", params := [⟨1⟩], ret := ⟨2⟩ }]
  overloads := [("f", [⟨0⟩, ⟨1⟩])]

-- Arrays of any rank and any elements, and arrays of numbers.
theorem match_narrow_array :
    let m := (overloadPair (Ty.varTop.withDim (-1)) (Ty.parInt.withDim 1)).sortOverloads
    m.accepts ⟨0⟩ [Ty.parBool.withDim 1] ∧ m.matchOverload? "f" [Ty.parBool.withDim 1] ≠ some ⟨0⟩ := by
  intro m
  refine ⟨by decide +kernel, match_most_specific (g := ⟨1⟩) ⟨[⟨1⟩, ⟨0⟩], by cbv, by simp⟩ (by decide +kernel)
    (.cons (by decide +kernel) .nil) (fun h => ?_) (.cons ⟨by decide, by decide, by decide, by decide⟩ .nil)⟩
  exact absurd (List.forall₂_cons.mp h).1 (by decide +kernel)

-- A set goes into an array of the same elements, whose overload comes first.
theorem match_set_as_array :
    let m := (overloadPair (Ty.parInt.withDim 1) .parSetInt).sortOverloads
    m.matchOverload? "f" [.parSetInt] = some ⟨0⟩ ∧ m.Overload "f" ⟨1⟩ ∧ m.accepts ⟨1⟩ [.parSetInt] ∧
      m.Params (fun t u => t.sub u) ⟨1⟩ ⟨0⟩ ∧ ¬m.Params (fun t u => t.sub u) ⟨0⟩ ⟨1⟩ := by
  intro m
  refine ⟨by cbv, ⟨[⟨0⟩, ⟨1⟩], by cbv, by simp⟩, by decide +kernel,
    .cons (by decide +kernel) .nil, fun h => ?_⟩
  exact absurd (List.forall₂_cons.mp h).1 (by decide +kernel)

end Samples
end Parvar
