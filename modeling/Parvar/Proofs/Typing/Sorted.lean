import Parvar.Proofs.Ty.Code
import Parvar.Proofs.Typing.Stable
import Parvar.Proofs.Typing.Standard

/-!
The order of overloads in a checked model. Overloads are sorted once, before any type is worked out,
by the types that parameters are written with. Where these types are written out in full nothing that
the check learns moves an overload, and sorting the table again changes nothing. A base that is left
to a domain, or a rank that is left to the indices, is learnt too late.
-/

namespace Parvar

open Model Check

section Types

-- The same type but for the mark of contained variables.
def Ty.Marks (t u : Ty) : Prop := u = t ∨ u = t.withCv true

variable {t u v : Ty}

theorem Ty.Marks.trans (h₁ : t.Marks u) (h₂ : u.Marks v) : t.Marks v := by
  obtain rfl | rfl := h₁
  · exact h₂
  · refine .inr ?_
    obtain rfl | rfl := h₂ <;> rfl

theorem Ty.Marks.specificity_eq (h : t.Marks u) : u.specificity = t.specificity := by
  obtain rfl | rfl := h <;> rfl

theorem Ty.Marks.same_eq (h : t.Marks u) : u.same v = t.same v := by
  obtain rfl | rfl := h <;> rfl

theorem Ty.Marks.base_eq (h : t.Marks u) : u.base = t.base := by
  obtain rfl | rfl := h <;> rfl

theorem Rules.marks_markedBy (t part : Ty) : t.Marks (markedBy t part) := by
  rw [markedBy]
  split
  · exact .inr rfl
  · exact .inl rfl

theorem Ty.Marks.withDim (h : t.Marks u) (dim : Int) : (t.withDim dim).Marks (u.withDim dim) := by
  obtain rfl | rfl := h
  · exact .inl rfl
  · exact .inr rfl

-- A code tells the base.
theorem Ty.base_of_same (h : t.same u) : t.base = u.base := by
  have heq : t.encode = u.encode := by simpa [same] using h
  obtain ⟨_, _, ht, _⟩ := t.bits_encode
  obtain ⟨_, _, hu, _⟩ := u.bits_encode
  rw [← t.base.ofCode_code, ← ht, heq, hu, u.base.ofCode_code]

theorem Ty.known_of_specificity (h : t.specificity = u.specificity) (hu : u.Known) : t.Known := by
  have hb : t.base.breadth = u.base.breadth := by
    injection h with _ h
    injection h
  intro ht
  rw [ht] at hb
  revert hb hu
  rw [Ty.Known]
  generalize u.base = b
  cases b <;> decide

theorem Ty.specificity_withDim (h : t.specificity = u.specificity) (dim : Int) :
    (t.withDim dim).specificity = (u.withDim dim).specificity := by
  simp only [specificity, List.cons.injEq] at h
  simp only [specificity, List.cons.injEq]
  exact ⟨h.1, h.2.1, h.2.2.1, h.2.2.2.1, rfl, trivial⟩

theorem Rules.Filled.marks (h : Rules.Filled t u) (ht : t.Known) : t.Marks u := by
  cases h with
  | known part => exact marks_markedBy t part
  | base part hu => exact absurd ht hu

-- Whether a type is `top` is not learnt from its domain.
theorem Rules.Filled.same_top (h : Rules.Filled t u) : u.same .top = t.same .top := by
  cases h with
  | known part => exact (marks_markedBy t part).same_eq
  | base part hu hb =>
    have hu : t.base = .unknown := Decidable.not_not.mp hu
    have hne : ∀ {v : Ty}, v.base ≠ .top → v.same .top = false := fun hv =>
      Bool.eq_false_iff.mpr fun h => hv (Ty.base_of_same h)
    rw [hne, hne]
    · simp [hu]
    · obtain rfl | rfl := hb <;> simp [Ty.withBase]

theorem Rules.foldlM_eq_ok {α β ε : Type} {f : β → α → Except ε β} {P : List α → β → Prop} {b b' : β} (hb : P [] b)
    (hf : ∀ as a b b', P as b → f b a = .ok b' → P (as ++ [a]) b') {as : List α} (h : as.foldlM f b = .ok b') :
    P as b' := by
  suffices hall : ∀ (as cs : List α) b, P cs b → as.foldlM f b = .ok b' → P (cs ++ as) b' from hall as [] b hb h
  intro as
  induction as with
  | nil =>
    intro cs b hb h
    cases h
    simpa using hb
  | cons a as ih =>
    intro cs b hb h
    rw [List.foldlM_cons] at h
    obtain ⟨c, hc, h⟩ := except_bind_eq_ok.mp h
    simpa using ih (cs ++ [a]) c (hf cs a b c hb hc) h

-- The rank of an array is that of its indices, or any if one of these is a type variable.
theorem Rules.rank_eq_ok {is : List (Ty × Span)} (h : Rules.rank t is = .ok u) :
    is = [] ∧ u = t ∨
      is ≠ [] ∧ (t.withDim (if is.any (·.1.same .top) then -1 else is.length)).Marks u := by
  rw [rank] at h
  split at h
  · next he =>
    cases h
    exact .inl ⟨List.isEmpty_iff.mp he, rfl⟩
  · next he =>
    refine .inr ⟨fun hn => he (by simp [hn]), ?_⟩
    obtain ⟨⟨v, g⟩, hr, h⟩ := except_bind_eq_ok.mp h
    obtain ⟨hm, hg⟩ : t.Marks v ∧ g = is.any (·.1.same .top) := by
      refine foldlM_eq_ok (P := fun is r => t.Marks r.1 ∧ r.2 = is.any (·.1.same .top)) ⟨.inl rfl, rfl⟩ ?_ hr
      rintro is ⟨index, span⟩ ⟨v, g⟩ ⟨v', g'⟩ ⟨hm, hg⟩ h
      have hv := hm.trans (marks_markedBy v index)
      rw [List.any_append, List.any_cons, List.any_nil, Bool.or_false, ← hg]
      dsimp only at h ⊢
      generalize index.same .top = top, index.same .parInt = int at h ⊢
      cases top <;> cases g <;> cases int <;> cases h
      all_goals exact ⟨hv, rfl⟩
    cases h
    rw [← hg]
    exact hm.withDim _

end Types

section Definitions

variable (m : Model)

-- A generator gives the declaration its type.
def Model.Ranged (d : DeclId) : Prop := ∃ e c, m.kind e = .comp c ∧ ∃ g ∈ c.generators, d ∈ g.decls

-- The type belongs to a name that a generator gives its type.
def Model.Ranging (t : TypeInstId) : Prop := ∃ d, m.Ranged d ∧ (m.decl d).ti = t

-- The rank of an array with the given indices.
def Model.rankBy (rs : List TypeInstId) : Int :=
  if rs.any fun r => (m.typeInst r).ty.same .top then -1 else rs.length

-- A type with its base and its rank: no domain and no index adds to it.
structure Model.WrittenOut (t : TypeInstId) : Prop where
  known : (m.typeInst t).ty.Known
  rank : (m.typeInst t).ranges ≠ [] → (m.typeInst t).ty.dim = m.rankBy (m.typeInst t).ranges
  index : ∀ r ∈ (m.typeInst t).ranges, (m.typeInst r).ranges = [] ∧ ¬m.Ranging r
  own : ¬m.Ranging t

-- A parameter of such a type, that has no other type already.
structure Model.Explicit (p : DeclId) : Prop where
  written : m.WrittenOut (m.decl p).ti
  ty : (m.decl p).ty.isUnknown ∨ (m.decl p).ty.specificity = (m.typeInst (m.decl p).ti).ty.specificity

-- A call of the name can be to the function, if not now then after the items have been collected.
def Model.Callable (name : String) (f : FuncId) : Prop :=
  m.Overload name f ∨ (m.func f).name = name ∧ ∃ p ∈ m.itemPaths, m.itemAt? p = some (.func f)

end Definitions

-- What a check keeps of a model: who takes which parameters, and how specific these are where they
-- are explicit. Indices stay type variables or stay others.
structure Heads (m₀ m : Model) : Prop where
  overloads : m.overloads = m₀.overloads
  params : ∀ f, (m.func f).params = (m₀.func f).params
  ti : ∀ d, (m.decl d).ti = (m₀.decl d).ti
  ranges : ∀ t, (m.typeInst t).ranges = (m₀.typeInst t).ranges
  ranged : ∀ d, m.Ranged d → m₀.Ranged d
  index : ∀ r, (m₀.typeInst r).ranges = [] → ¬m₀.Ranging r →
    (m.typeInst r).ty.same .top = (m₀.typeInst r).ty.same .top
  written : ∀ t, m₀.WrittenOut t → (m.typeInst t).ty.specificity = (m₀.typeInst t).ty.specificity
  param : ∀ p, m₀.Explicit p → (m.decl p).ty.isUnknown ∨
    (m.decl p).ty.specificity = (m₀.typeInst (m₀.decl p).ti).ty.specificity

namespace Heads

variable {m₀ m m₁ m₂ : Model}

protected theorem refl (m : Model) : Heads m m :=
  ⟨rfl, fun _ => rfl, fun _ => rfl, fun _ => rfl, fun _ => id, fun _ _ _ => rfl, fun _ _ => rfl, fun _ h => h.ty⟩

theorem not_ranged {p : DeclId} (hp : m₀.Explicit p) : ¬m₀.Ranged p := fun hr => hp.written.own ⟨p, hr, rfl⟩

-- Nothing about declarations, type-insts and functions is touched.
theorem of_nodes (h : Heads m₀ m) (ho : m₁.overloads = m.overloads) (hf : ∀ f, (m₁.func f).params = (m.func f).params)
    (hd : ∀ d, (m₁.decl d).ti = (m.decl d).ti ∧ (m₁.decl d).ty = (m.decl d).ty)
    (ht : m₁.typeInsts = m.typeInsts) (hr : ∀ d, m₁.Ranged d → m.Ranged d) : Heads m₀ m₁ := by
  have hti : m₁.typeInst = m.typeInst := by funext t; simp [typeInst, ht]
  refine ⟨ho.trans h.overloads, fun f => (hf f).trans (h.params f), fun d => (hd d).1.trans (h.ti d), ?_,
    fun d hm => h.ranged d (hr d hm), ?_, ?_, fun p hp => ?_⟩
  · rw [hti]; exact h.ranges
  · rw [hti]; exact h.index
  · rw [hti]; exact h.written
  · rw [(hd p).2]
    exact h.param p hp

theorem setDeclTy {d : DeclId} {ty : Ty} (h : Heads m₀ m)
    (hd : m₀.Explicit d → ty.specificity = (m₀.typeInst (m₀.decl d).ti).ty.specificity) :
    Heads m₀ (m.setDeclTy d ty) := by
  have hti := fun c => ((m.retyped_setDeclTy d ty).decl c).1
  refine ⟨h.overloads, h.params, fun c => (hti c).trans (h.ti c), h.ranges, h.ranged, h.index, h.written,
    fun p hp => ?_⟩
  rw [Model.setDeclTy, decl_modifyDecl]
  split
  · next hpd => exact .inr (hpd.1 ▸ hd (hpd.1 ▸ hp))
  · exact h.param p hp

theorem setTypeInstTy {t : TypeInstId} {ty : Ty} (h : Heads m₀ m)
    (hi : (m₀.typeInst t).ranges = [] → ¬m₀.Ranging t → ty.same .top = (m₀.typeInst t).ty.same .top)
    (hw : m₀.WrittenOut t → ty.specificity = (m₀.typeInst t).ty.specificity) :
    Heads m₀ (m.setTypeInstTy t ty) := by
  have hr := fun u => ((m.retyped_setTypeInstTy t ty).typeInst u).1
  refine ⟨h.overloads, h.params, h.ti, fun u => (hr u).trans (h.ranges u), h.ranged, fun u hu hn => ?_,
    fun u hu => ?_, h.param⟩
  all_goals
    rw [ty_setTypeInstTy]
    split
  · next hut => exact hut.1 ▸ hi (hut.1 ▸ hu) (hut.1 ▸ hn)
  · exact h.index u hu hn
  · next hut => exact hut.1 ▸ hw (hut.1 ▸ hu)
  · exact h.written u hu

theorem stable (m₀ : Model) : Stable fun c => Heads m₀ c.model where
  report _ h := h
  setTy {c} e t h := by
    change Heads m₀ (c.model.setTy e t)
    refine h.of_nodes rfl (fun _ => rfl) (fun _ => ⟨rfl, rfl⟩) rfl fun d ⟨a, b, hk, hd⟩ => ⟨a, b, ?_, hd⟩
    rwa [(retyped_setTy _ e t).kind a] at hk
  setKind {c} e k hk h := by
    change Heads m₀ (c.model.setKind e k)
    refine h.of_nodes rfl (fun _ => rfl) (fun _ => ⟨rfl, rfl⟩) rfl fun d ⟨a, b, hc, hd⟩ => ⟨a, b, ?_, hd⟩
    obtain hs | hs := kind_setKind_cases _ e a k
    · exact hs.symm.trans hc
    · cases hs.symm.trans hc
      cases hk
  addExpr {c} x hx h := by
    change Heads m₀ (c.model.addExpr x).2
    refine h.of_nodes rfl (fun _ => rfl) (fun _ => ⟨rfl, rfl⟩) rfl fun d ⟨a, b, hc, hd⟩ => ⟨a, b, ?_, hd⟩
    obtain hs | ⟨-, hs⟩ := Model.expr_addExpr _ x a
    · rwa [kind, hs] at hc
    · rw [kind, hs] at hc
      rw [hc] at hx
      cases hx
  setInit {c} d e h := by
    change Heads m₀ (c.model.setInit d (some e))
    refine h.of_nodes rfl (fun _ => rfl) (fun b => ?_) rfl fun _ => id
    rw [Model.setInit, decl_modifyDecl]
    split
    · next hb => exact hb.1 ▸ ⟨rfl, rfl⟩
    · exact ⟨rfl, rfl⟩
  setBody {c} f e h := by
    change Heads m₀ (c.model.modifyFunc f _)
    refine h.of_nodes rfl (fun g => ?_) (fun _ => ⟨rfl, rfl⟩) rfl fun _ => id
    obtain hs | hs := func_setBody _ f g e <;> rw [hs]
  declare d h₁ h₂ h := by
    refine h.setDeclTy fun hd => ?_
    rw [h₁.model.ti]
    exact h₂.model.written _ hd.written
  generate t h₁ hk hg hd h₂ h := by
    have h₂ := h₂.model
    have hr := h₁.model.ranged _ ⟨_, _, hk, _, hg, hd⟩
    refine ⟨h.setDeclTy fun hd => absurd hr (not_ranged hd), h.setTypeInstTy (fun _ hn => ?_) fun hw => ?_⟩
    · exact absurd ⟨_, hr, (h₂.ti _).symm⟩ hn
    · exact absurd ⟨_, hr, (h₂.ti _).symm⟩ hw.own
  typeInst := by
    intro m₁ m₂ c t ty ty' h₁ h₂ h hr hf
    have h₁ := h₁.model
    have h₂ := h₂.model
    have hknown : m₀.WrittenOut t → (m₁.typeInst t).ty.Known := fun hw =>
      Ty.known_of_specificity (h₁.written t hw) hw.known
    obtain ⟨-, rfl⟩ | ⟨hne, hm⟩ := Rules.rank_eq_ok hr
    · refine h.setTypeInstTy (fun hr hn => ?_) fun hw => ?_
      · rw [hf.same_top, h₁.index t hr hn]
      · rw [(hf.marks (hknown hw)).specificity_eq, h₁.written t hw]
    · refine h.setTypeInstTy (fun hr _ => ?_) fun hw => ?_
      · exact absurd (by rw [h₁.ranges, hr]; rfl) hne
      · -- The indices are type variables now if they were so at first, so the rank is the one written.
        have hany : (m₁.typeInst t).ranges.any (fun r => (m₂.typeInst r).ty.same .top) =
            (m₀.typeInst t).ranges.any fun r => (m₀.typeInst r).ty.same .top := by
          rw [h₁.ranges, Bool.eq_iff_iff, List.any_eq_true, List.any_eq_true]
          refine exists_congr fun r => and_congr_right fun hr => ?_
          rw [h₂.index r (hw.index r hr).1 (hw.index r hr).2]
        have hrank : (m₀.typeInst t).ty.withDim (m₀.rankBy (m₀.typeInst t).ranges) = (m₀.typeInst t).ty := by
          rw [← hw.rank fun hn => hne (by rw [h₁.ranges, hn]; rfl)]
          rfl
        have hm : ((m₁.typeInst t).ty.withDim (m₀.rankBy (m₀.typeInst t).ranges)).Marks ty := by
          rw [rankBy, ← hany, ← h₁.ranges]
          simpa [Function.comp_def] using hm
        have hty : ty.Known := by
          rw [Ty.Known, hm.base_eq]
          exact hknown hw
        rw [(hf.marks hty).specificity_eq, hm.specificity_eq, Ty.specificity_withDim (h₁.written t hw), hrank]

end Heads

section Sorting

variable {m m' : Model} {name : String} {fs : List FuncId}

theorem Model.Explicit.specificity_eq {p : DeclId} (hp : m.Explicit p) :
    (m.paramTy p).specificity = (m.typeInst (m.decl p).ti).ty.specificity := by
  simp only [paramTy]
  split
  · rfl
  · next h => exact hp.ty.resolve_left h

theorem Heads.paramTy_eq (h : Heads m m') {p : DeclId} (hp : m.Explicit p) :
    (m'.paramTy p).specificity = (m.paramTy p).specificity := by
  rw [hp.specificity_eq, paramTy, ← h.ti p]
  split
  · rw [h.written _ (h.ti p ▸ hp.written)]
  · next hk =>
    rw [h.ti p]
    exact (h.param p hp).resolve_left hk

theorem Heads.specificity_eq (h : Heads m m') {f : FuncId} (hf : ∀ p ∈ (m.func f).params, m.Explicit p) :
    m'.specificity f = m.specificity f := by
  rw [specificity, specificity, h.params f]
  exact congrArg _ (List.flatMap_congr fun p hp => h.paramTy_eq (hf p hp))

-- What is sorted already stays as it is.
theorem sortBySpecificity_eq_self (h : fs.Pairwise fun f g => Library.Precedes (m.specificity f) (m.specificity g)) :
    m.sortBySpecificity fs = fs := by
  rw [sortBySpecificity, List.mergeSort_of_pairwise]
  · rw [List.map_map]
    exact List.map_id fs
  · exact List.pairwise_map.mpr (h.imp fun hle => by simpa using hle)

-- A table that is sorted by specificities that have not changed.
theorem Heads.sorted (h : Heads m m') (hm : m.Sorted)
    (hs : ∀ f, m.Overload name f → ∀ p ∈ (m.func f).params, m.Explicit p) :
    m'.sortOverloads.overloadsOf? name = m'.overloadsOf? name := by
  rw [overloadsOf_sortOverloads]
  have heq : m'.overloadsOf? name = m.overloadsOf? name := by rw [overloadsOf?, overloadsOf?, h.overloads]
  cases hfs : m'.overloadsOf? name with
  | none => rfl
  | some fs =>
    have hfs' := heq.symm.trans hfs
    have hspec : ∀ f ∈ fs, m'.specificity f = m.specificity f := fun f hf =>
      h.specificity_eq (hs f ⟨fs, hfs', hf⟩)
    refine congrArg some (sortBySpecificity_eq_self ((hm name fs hfs').imp_of_mem fun hf hg hle => ?_))
    rwa [hspec _ hf, hspec _ hg]

end Sorting

section Resolution

-- What resolution keeps of the heads of functions.
structure Retained (m m' : Model) : Prop where
  typeInsts : m'.typeInsts = m.typeInsts
  funcs : m'.funcs = m.funcs
  decl : ∀ d, (m'.decl d).ti = (m.decl d).ti ∧ (m'.decl d).ty = (m.decl d).ty
  comp : ∀ e c, m'.kind e = .comp c → m.kind e = .comp c

variable {m m₁ m₂ : Model} {r r₁ r₂ : Resolution} {paths : List ItemPath} {name : String} {f : FuncId}

theorem Retained.trans (h₁ : Retained m m₁) (h₂ : Retained m₁ m₂) : Retained m m₂ where
  typeInsts := h₂.typeInsts.trans h₁.typeInsts
  funcs := h₂.funcs.trans h₁.funcs
  decl d := ⟨(h₂.decl d).1.trans (h₁.decl d).1, (h₂.decl d).2.trans (h₁.decl d).2⟩
  comp e c hc := h₁.comp e c (h₂.comp e c hc)

theorem Retained.explicit (h : Retained m m₁) {p : DeclId} (hp : m.Explicit p) : m₁.Explicit p := by
  have hti : m₁.typeInst = m.typeInst := by funext t; simp [typeInst, h.typeInsts]
  have hr : ∀ t, m₁.Ranging t → m.Ranging t := by
    rintro t ⟨d, ⟨e, c, hc, hd⟩, ht⟩
    exact ⟨d, ⟨e, c, h.comp e c hc, hd⟩, (h.decl d).1 ▸ ht⟩
  have hrank : m₁.rankBy = m.rankBy := by
    funext rs
    rw [rankBy, rankBy, hti]
  have hw := hp.written
  refine ⟨⟨?_, ?_, fun t ht => ?_, fun hn => ?_⟩, ?_⟩
  all_goals rw [(h.decl p).1] at *
  · rw [hti]
    exact hw.known
  · rw [hti, hrank]
    exact hw.rank
  · rw [hti] at ht ⊢
    exact ⟨(hw.index t ht).1, fun hn => (hw.index t ht).2 (hr t hn)⟩
  · exact hw.own (hr _ hn)
  · rw [(h.decl p).2, hti]
    exact hp.ty

theorem Model.Rebinds.retained (h : m.Rebinds m₁) : Retained m m₁ :=
  ⟨h.typeInsts, h.funcs, fun d => by simp [Model.decl, h.decls],
    fun e c hc => ((h.kind e).isConstant_eq.2.2 c).mp hc⟩

-- All that a run has done so far left the heads and the table as they were.
def Retaining (r r' : Resolution) : Prop := Retained r.model r'.model ∧ r'.model.overloads = r.model.overloads

instance : Std.Refl Retaining := ⟨fun _ => ⟨⟨rfl, rfl, fun _ => ⟨rfl, rfl⟩, fun _ _ => id⟩, rfl⟩⟩

instance : IsTrans Resolution Retaining := ⟨fun _ _ _ h₁ h₂ => ⟨h₁.1.trans h₂.1, h₂.2.trans h₁.2⟩⟩

theorem retained_setAssigned (p : ItemPath) (d : DeclId) (e : ExprId) (m : Model) :
    Retained m (setAssigned p d e m) ∧ (setAssigned p d e m).overloads = m.overloads := by
  have ⟨he, ht, _⟩ := @Resolve.nodes_setAssigned d m p e
  have hfo : (setAssigned p d e m).funcs = m.funcs ∧ (setAssigned p d e m).overloads = m.overloads := by
    simp only [setAssigned, modifySlot]
    split <;> exact ⟨rfl, rfl⟩
  refine ⟨⟨ht, hfo.1, fun c => ?_, fun a c hc => by simpa [kind, expr, he] using hc⟩, hfo.2⟩
  obtain h | h := @Resolve.decl_setAssigned d m p e c <;> rw [h] <;> exact ⟨rfl, rfl⟩

theorem keeps_mergeAssignment (p : ItemPath) (s : Slot) : Keeps Retaining (mergeAssignment p s) := by
  cases hk : s.item
  case assign a =>
    simp only [mergeAssignment, hk]
    refine .bind (.bind .get fun r => ?_) fun d => .bind .get fun r => ?_
    · split
      · exact .pure _
      · exact .throw _
    · split
      · exact .bind (.throw _) fun _ => .modify fun r => retained_setAssigned p d a.value r.model
      · exact .modify fun r => retained_setAssigned p d a.value r.model
  all_goals
    simp only [mergeAssignment, hk]
    exact .pure _

-- Only the functions among the items join the table.
theorem callable_collect (hm : ∃ os, r.model = { m with overloads := os })
    (h : ∀ name f, r.model.Overload name f → m.Callable name f) (hp : paths ⊆ m.itemPaths)
    (hx : eachSlot paths (fun _ s => collect s.item) r = .ok () r₂) :
    (∃ os, r₂.model = { m with overloads := os }) ∧ ∀ name f, r₂.model.Overload name f → m.Callable name f := by
  induction paths generalizing r with
  | nil =>
    obtain ⟨-, rfl⟩ := pure_eq_ok.mp hx
    exact ⟨hm, h⟩
  | cons p paths ih =>
    have ⟨_, r₁, hx₁, hx₂⟩ := bind_eq_ok.mp hx
    suffices h₁ : (∃ os, r₁.model = { m with overloads := os }) ∧ ∀ name f, r₁.model.Overload name f → m.Callable name f
      from ih h₁.1 h₁.2 (fun _ hq => hp (List.mem_cons_of_mem _ hq)) hx₂
    obtain ⟨_, rfl⟩ | ⟨s, _, _, hat, hx₁⟩ := Resolve.atSlot_eq_ok hx₁
    · exact ⟨hm, h⟩
    · have ⟨os, hos⟩ := hm
      cases hk : s.item <;> rw [hk] at hx₁ hat
      case func f =>
        obtain rfl := Resolve.changeModel_eq_ok (f := (·.register f)) hx₁
        have ⟨os', hr⟩ := Resolve.register_eq r.model f
        refine ⟨⟨os', hr.trans (by rw [hos])⟩, fun name g hg => ?_⟩
        obtain hg | ⟨rfl, rfl⟩ := overload_register.mp hg
        · exact h name g hg
        · rw [hos] at hat ⊢
          exact .inr ⟨rfl, p, hp List.mem_cons_self, hat⟩
      case decl d =>
        obtain ⟨rfl, _⟩ := Resolve.pushNew_eq_ok hx₁
        exact ⟨hm, h⟩
      all_goals
        obtain ⟨-, rfl⟩ := pure_eq_ok.mp hx₁
        exact ⟨hm, h⟩

-- Resolution leaves the heads of functions as they are, and what it adds to the table are items.
theorem resolveItems_heads (hx : resolveItems m.itemPaths { model := m } = .ok () r) :
    Retained m r.model ∧ ∀ name f, r.model.Overload name f → m.Callable name f := by
  have ⟨_, r₁, hx₁, hx⟩ := bind_eq_ok.mp hx
  have ⟨_, r₂, hx₂, hx₃⟩ := bind_eq_ok.mp hx
  have hstart : ∀ name f, ({ model := m } : Resolution).model.Overload name f → m.Callable name f :=
    fun _ _ hf => .inl hf
  have ⟨⟨os, hos⟩, h₁⟩ := callable_collect ⟨m.overloads, rfl⟩ hstart (List.Subset.refl _) hx₁
  have h₂ := (Resolve.keeps_eachSlot keeps_mergeAssignment m.itemPaths).of_ok hx₂
  have h₃ := (Resolve.keeps_resolvedItems m.itemPaths).of_ok hx₃
  have hfirst : Retained m r₁.model := by
    rw [hos]
    exact ⟨rfl, rfl, fun _ => ⟨rfl, rfl⟩, fun _ _ => id⟩
  refine ⟨(hfirst.trans h₂.1).trans (Model.Rebinds.retained h₃), fun name f ⟨fs, hfs, hf⟩ => h₁ name f ⟨fs, ?_, hf⟩⟩
  rwa [overloadsOf?, ← h₂.2, ← Model.Rebinds.overloads h₃]

end Resolution

theorem overload_sortOverloads {m : Model} {name : String} {f : FuncId} (order : List DeclId)
    (hf : (sortItems order m.sortOverloads).Overload name f) : m.Overload name f :=
  overload_sorted_iff.mp hf

-- After a check, sorting the overloads of a name again changes nothing, and a call finds the overload
-- that it found, if all their parameters are explicit.
theorem check_leaves_sorted {opts : CheckOptions} {m m' : Model} {report : Report} {name : String}
    (h : check opts m = .ok report m')
    (hs : let w := if opts.library then m.withLibrary else m
      ∀ f, w.Callable name f → ∀ p ∈ (w.func f).params, w.Explicit p) :
    m'.sortOverloads.overloadsOf? name = m'.overloadsOf? name ∧
      ∀ args, m'.sortOverloads.matchOverload? name args = m'.matchOverload? name args := by
  have hitems : Check.items opts.allowUndefined (if opts.library then m.withLibrary else m) = .ok report m' := by
    rw [check] at h
    split at h
    · next hl =>
      rw [if_pos hl]
      exact h
    · next hl =>
      rw [if_neg hl]
      exact h
  generalize (if opts.library then m.withLibrary else m) = w at hs hitems
  suffices hsort : m'.sortOverloads.overloadsOf? name = m'.overloadsOf? name from
    ⟨hsort, fun args => by rw [matchOverload?, matchOverload?, hsort]; rfl⟩
  obtain ⟨r, hr, ho, _⟩ := items_eq_ok hitems
  obtain ⟨hret, hcall⟩ := resolveItems_heads hr
  let m₀ := sortItems report.order r.model.sortOverloads
  have hheads : Heads m₀ m' := holds_items (Heads.stable m₀) hitems fun r' hr' _ => by
    cases hr.symm.trans hr'
    exact .refl m₀
  have hret₀ : Retained w m₀ := ⟨hret.typeInsts, hret.funcs, hret.decl, hret.comp⟩
  refine hheads.sorted (sorted_sortOverloads r.model) fun f hf p hp => hret₀.explicit ?_
  have hfunc : m₀.func f = w.func f := by rw [func, func, hret₀.funcs]
  exact hs f (hcall name f (overload_sortOverloads report.order hf)) p (hfunc ▸ hp)

section Examples

-- `f(array[int] of float: x)` and `f(int: y)` with `int: z = f(2)` and `set of int: s = {i | i in {1}}`; `ty`
-- says which types have been found, `fn` which function is called.
def mixedModel (ty : Ty → Ty) (fn : Option FuncId) (i : Option DeclId) (items : List Item)
    (overloads : List (String × List FuncId)) : Model where
  exprs := #[{ kind := .int 2, ty := .parInt }, { kind := .call "f" [⟨0⟩] fn, ty := ty .parInt },
    { kind := .int 1, ty := .parInt }, { kind := .setLit [⟨2⟩], ty := ty .parSetInt },
    { kind := .ident "i" i, ty := ty .parInt },
    { kind := .comp ⟨⟨4⟩, [⟨[⟨3⟩], ⟨3⟩⟩], none, true⟩, ty := ty .parSetInt }]
  decls := #[{ name := "x", ti := ⟨0⟩, ty := ty (Ty.parFloat.withDim 1) }, { name := "y", ti := ⟨1⟩, ty := ty .parInt },
    { name := "z", ti := ⟨2⟩, init := some ⟨1⟩, toplevel := true, ty := ty .parInt },
    { name := "i", ti := ⟨3⟩, ty := ty .parInt },
    { name := "s", ti := ⟨4⟩, init := some ⟨5⟩, toplevel := true, ty := ty .parSetInt }]
  typeInsts := #[{ ty := Ty.parFloat.withDim 1, ranges := [⟨5⟩] }, { ty := .parInt }, { ty := .parInt },
    { ty := .parInt }, { ty := .parSetInt }, { ty := .parInt }, { ty := .parInt }]
  funcs := #[{ name := "f", params := [⟨0⟩], ret := ⟨6⟩ }, { name := "f", params := [⟨1⟩], ret := ⟨6⟩ }]
  items := (items.map fun item => { item }).toArray
  overloads := overloads

def newMixedModel : Model :=
  mixedModel (fun _ => .unknown) none none [.func ⟨0⟩, .func ⟨1⟩, .decl ⟨2⟩, .decl ⟨4⟩] []

theorem ranging_mixed {t : TypeInstId} (h : newMixedModel.Ranging t) : t = ⟨3⟩ := by
  obtain ⟨d, ⟨⟨e⟩, c, hk, g, hg, hd⟩, rfl⟩ := h
  match e with
  | 5 =>
    cases hk
    obtain rfl := List.mem_singleton.mp hg
    obtain rfl := List.mem_singleton.mp hd
    rfl
  | 0 | 1 | 2 | 3 | 4 | _ + 6 => cases hk

theorem explicit_mixed {name : String} {f : FuncId} (hf : newMixedModel.Callable name f) :
    ∀ p ∈ (newMixedModel.func f).params, newMixedModel.Explicit p := by
  have hx : newMixedModel.Explicit ⟨0⟩ := by
    refine ⟨⟨by decide, fun _ => rfl, fun r hr => ?_, fun h => by cases ranging_mixed h⟩, .inl rfl⟩
    obtain rfl := List.mem_singleton.mp hr
    exact ⟨rfl, fun h => by cases ranging_mixed h⟩
  have hy : newMixedModel.Explicit ⟨1⟩ :=
    ⟨⟨by decide, fun h => absurd rfl h, fun r hr => (by cases hr), fun h => by cases ranging_mixed h⟩, .inl rfl⟩
  obtain ⟨fs, hfs, -⟩ | ⟨-, p, hp, hat⟩ := hf
  · cases hfs
  · have hp : p ∈ [⟨none, 0⟩, ⟨none, 1⟩, ⟨none, 2⟩, ⟨none, 3⟩] :=
      (show newMixedModel.itemPaths = [⟨none, 0⟩, ⟨none, 1⟩, ⟨none, 2⟩, ⟨none, 3⟩] by decide) ▸ hp
    simp only [List.mem_cons, List.not_mem_nil, or_false] at hp
    obtain rfl | rfl | rfl | rfl := hp <;> cases hat
    · exact List.forall_mem_singleton.mpr hx
    · exact List.forall_mem_singleton.mpr hy

-- The call is to the function that takes an integer, though the other was there first.
theorem check_leaves_sorted_mixed :
    let m' := mixedModel id (some ⟨1⟩) (some ⟨3⟩) [.decl ⟨2⟩, .decl ⟨4⟩, .func ⟨0⟩, .func ⟨1⟩] [("f", [⟨1⟩, ⟨0⟩])]
    check { library := false } newMixedModel = .ok ⟨[], [⟨0⟩, ⟨1⟩, ⟨2⟩, ⟨3⟩, ⟨4⟩]⟩ m' ∧
      (∀ f, newMixedModel.Callable "f" f → ∀ p ∈ (newMixedModel.func f).params, newMixedModel.Explicit p) ∧
      m'.sortOverloads.overloadsOf? "f" = some [⟨1⟩, ⟨0⟩] ∧
      m'.sortOverloads.matchOverload? "f" [.parInt] = m'.matchOverload? "f" [.parInt] := by
  intro m'
  have h : check { library := false } newMixedModel = .ok ⟨[], [⟨0⟩, ⟨1⟩, ⟨2⟩, ⟨3⟩, ⟨4⟩]⟩ m' := by cbv
  have hall : ∀ f, newMixedModel.Callable "f" f → ∀ p ∈ (newMixedModel.func f).params, newMixedModel.Explicit p :=
    fun f hf => explicit_mixed hf
  obtain ⟨hsort, hmatch⟩ := check_leaves_sorted h hall
  exact ⟨h, hall, hsort, hmatch _⟩

-- `f(float: x)` and `f({1}: y)` with `int: z = f(2)`, and the builtin that widens integers.
def domainModel (ty : Ty → Ty) (call : ExprKind) (items : List Item) (overloads : List (String × List FuncId))
    (coercions : List Expr) : Model where
  exprs := ({ kind := .int 2, ty := .parInt } :: { kind := call, ty := ty .parInt } :: { kind := .int 1, ty := .parInt } ::
    { kind := .setLit [⟨2⟩], ty := ty .parSetInt } :: coercions : List Expr).toArray
  decls := #[{ name := "x", ti := ⟨0⟩, ty := ty .parFloat }, { name := "y", ti := ⟨1⟩, ty := ty .parInt },
    { name := "z", ti := ⟨2⟩, init := some ⟨1⟩, toplevel := true, ty := ty .parInt }, { name := "n", ti := ⟨4⟩ }]
  typeInsts := #[{ ty := .parFloat }, { ty := ty .parInt, domain := some ⟨3⟩ }, { ty := .parInt }, { ty := .parInt },
    { ty := .parInt }, { ty := .parFloat }]
  funcs := #[{ name := "f", params := [⟨0⟩], ret := ⟨3⟩ }, { name := "f", params := [⟨1⟩], ret := ⟨3⟩ },
    { name := "int2float", params := [⟨3⟩], ret := ⟨5⟩ }]
  items := (items.map fun item => { item }).toArray
  overloads := overloads

-- The type of `y` is found only after the overloads have been sorted: the check chooses the function
-- that takes a float, and the next sorting puts the other first.
theorem late_domain_disorders :
    let m := domainModel (fun _ => .unknown) (.call "f" [⟨0⟩] none) [.func ⟨0⟩, .func ⟨1⟩, .decl ⟨2⟩]
      [("int2float", [⟨2⟩])] []
    let m' := domainModel id (.call "f" [⟨4⟩] (some ⟨0⟩)) [.decl ⟨2⟩, .func ⟨0⟩, .func ⟨1⟩]
      [("int2float", [⟨2⟩]), ("f", [⟨0⟩, ⟨1⟩])] [{ kind := .call "int2float" [⟨0⟩] (some ⟨2⟩), ty := .parFloat }]
    check { library := false } m = .ok ⟨[], [⟨0⟩, ⟨1⟩, ⟨2⟩]⟩ m' ∧
      m'.sortOverloads.overloadsOf? "f" = some [⟨1⟩, ⟨0⟩] ∧
      m'.matchOverload? "f" [.parInt] = some ⟨0⟩ ∧ m'.sortOverloads.matchOverload? "f" [.parInt] = some ⟨1⟩ := by
  intro m m'
  have h : check { library := false } m = .ok ⟨[], [⟨0⟩, ⟨1⟩, ⟨2⟩]⟩ m' := by cbv
  exact ⟨h, by cbv, by decide, by cbv⟩

end Examples
end Parvar
