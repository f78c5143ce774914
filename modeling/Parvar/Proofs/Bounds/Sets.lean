import Parvar.Proofs.Bounds.Fuel
import Parvar.Proofs.Bounds.Values
import Parvar.Proofs.Eval.Sets
import Parvar.Proofs.IntSet.Card

/-!
Bounds of sets. They have every element that a set can have, for any values of its variables that
lie in their domains, and a count of its elements by them is never too small.
-/

namespace Parvar

open Eval

namespace Given

variable {g h : Given} {op : BinOp} {v : Int64} {S : IntSet}

-- A domain has an integer as an element, and a set as a part.
def Within (D : IntSet) : Given → Prop
  | int v => D.contains v
  | set S => ∀ v, S.contains v → D.contains v

-- The same, whenever the domain of a declaration is evaluated.
def Fits (ev : Eval) (m : Model) (d : DeclId) (g : Given) : Prop :=
  ∀ domain, m.domain d = some domain → ∀ s D t, ev.Reached m s → ev.intSet domain s = .ok D t → g.Within D

theorem un_eq_int {op : UnOp} (hv : g.un op = some (int v)) :
    ∃ x, g = int x ∧ (op = .plus ∧ x = v ∨ op = .minus ∧ Checked.neg x = some v) := by
  cases g <;> cases op <;> simp_all [un]

theorem bin_eq_int (hv : g.bin op h = some (int v)) :
    ∃ x y, g = int x ∧ h = int y ∧ Eval.intOp op x y = .ok v := by
  cases g <;> cases h <;> simp only [bin, reduceCtorEq] at hv
  · split at hv
    · cases hv
    · obtain ⟨_, hw, ⟨⟩⟩ := Option.map_eq_some_iff.mp hv
      exact ⟨_, _, rfl, rfl, toOption_eq_some.mp hw⟩
  · simp at hv

theorem range_eq_set (hS : g.bin .range h = some (set S)) : ∃ x y, g = int x ∧ h = int y ∧ S = .range x y := by
  cases g <;> cases h <;> simp_all [bin, Eval.setOp, Except.toOption]

theorem bin_eq_set (hop : op ≠ .range) (hS : g.bin op h = some (set S)) :
    ∃ A B, g = set A ∧ h = set B ∧ Eval.setOp .intSet op A B = .ok S := by
  cases g <;> cases h <;> simp only [bin, reduceCtorEq] at hS
  · simp [hop] at hS
  · obtain ⟨_, hT, ⟨⟩⟩ := Option.map_eq_some_iff.mp hS
    exact ⟨_, _, rfl, rfl, toOption_eq_some.mp hT⟩

end Given

theorem setFunction_ne_range {name : String} {op : BinOp} (hn : setFunction? name = some op) : op ≠ .range := by
  unfold setFunction? at hn
  split at hn <;> cases hn <;> decide

namespace Model.Takes

variable {m : Model} {ρ : DeclId → Option Given} {e : ExprId} {g : Given} (h : m.Takes ρ e g)
include h

theorem of_ident {name : String} {d : DeclId} (hk : m.kind e = .ident name (some d)) : ρ (m.followFlat d) = some g := by
  cases h with
  | var hk' hd =>
    cases hk.symm.trans hk'
    exact hd
  | _ hk' => cases hk.symm.trans hk'

theorem of_un {op : UnOp} {a : ExprId} {fn : Option FuncId} (hk : m.kind e = .un op a fn) :
    ∃ x, m.Takes ρ a x ∧ x.un op = some g := by
  cases h with
  | un hk' ha hr =>
    cases hk.symm.trans hk'
    exact ⟨_, ha, hr⟩
  | _ hk' => cases hk.symm.trans hk'

theorem of_bin {op : BinOp} {a b : ExprId} {fn : Option FuncId} (hk : m.kind e = .bin op a b fn) :
    ∃ x y, m.Takes ρ a x ∧ m.Takes ρ b y ∧ x.bin op y = some g := by
  cases h with
  | bin hk' ha hb hr =>
    cases hk.symm.trans hk'
    exact ⟨_, _, ha, hb, hr⟩
  | _ hk' => cases hk.symm.trans hk'

theorem of_setLit {es : List ExprId} (hk : m.kind e = .setLit es) :
    ∃ vs, g = .set (.ofValues vs) ∧ List.Forall₂ (fun a v => m.Takes ρ a (.int v)) es vs := by
  cases h with
  | elems hk' hlen hp =>
    cases hk.symm.trans hk'
    exact ⟨_, rfl, List.forall₂_iff_zip.mpr ⟨hlen, fun hm => hp _ hm⟩⟩
  | _ hk' => cases hk.symm.trans hk'

theorem of_call {name : String} {op : BinOp} {a b : ExprId} {fn : Option FuncId}
    (hk : m.kind e = .call name [a, b] fn) (hn : setFunction? name = some op) :
    ∃ x y, m.Takes ρ a x ∧ m.Takes ρ b y ∧ x.bin op y = some g := by
  cases h with
  | call hk' hn' ha hb hr =>
    cases hk.symm.trans hk'
    obtain rfl := Option.some.inj (hn.symm.trans hn')
    exact ⟨_, _, ha, hb, hr⟩
  | _ hk' => cases hk.symm.trans hk'

end Model.Takes

namespace Bound

variable {b : Bound} {v : Int64} {n : Int}

theorem Below.le (h : b.Below n) (hv : b.finite? = some v) : v.toInt ≤ n := by
  cases b <;> simp_all [finite?]

theorem Above.le (h : b.Above n) (hv : b.finite? = some v) : n ≤ v.toInt := by
  cases b <;> simp_all [finite?]

end Bound

namespace Bounds

open EvalM

-- An analysis whose bounds hold the values that terms take.
structure Spans (ev : Eval) (m : Model) (ρ : DeclId → Option Given) (bounds : Analysis) : Prop where
  framing : Framing ev
  finds : Finds m ρ ev
  fits : ∀ d g, ρ d = some g → g.Fits ev m d
  leads : ∀ k e, Keeps (Leads ev m) (bounds k e)
  int : ∀ {e s t v} {i : Interval}, m.IntTerm e → ev.Reached m s → bounds .int e s = .ok (some i) t →
    m.Takes ρ e (.int v) → v ∈ i
  set : ∀ {e s t} {b S : IntSet}, m.SetTerm e → ev.Reached m s → bounds .intSet e s = .ok (some b) t →
    m.Takes ρ e (.set S) → ∀ v, S.contains v → b.contains v

namespace Spans

variable {ev : Eval} {m : Model} {ρ : DeclId → Option Given} {bounds : Analysis} (h : Spans ev m ρ bounds)
  {s t : Machine} {e : ExprId}
include h

theorem carries (hs : ev.Reached m s) : s.Carries m ρ := Machine.Framed.carries (hs.of_keeps (h.framing [])) ρ

section Integers

variable {i : Interval} {v : Int64}

theorem int_domain {d : DeclId} {bound : ExprId → EvalM (Option Interval)} (hd : m.IsVariable (m.followFlat d))
    (hs : ev.Reached m s) (he : ofDecl bound (Integers.ofDomain ev) d s = .ok (some i) t)
    (hv : ρ (m.followFlat d) = some (.int v)) : v ∈ i := by
  have hc := (h.carries hs).toContinues
  obtain ⟨domain, hdom, _⟩ := hd.domain
  simp only [ofDecl, model_bind, hc.followFlat_eq, hc.domain_eq, hdom, Integers.ofDomain, bind_eq_ok, pure_eq_ok,
    Option.bind_eq_bind, Option.bind_eq_some_iff] at he
  obtain ⟨_, u, hD, ⟨D, rfl, lo, hlo, hi, hhi, hr⟩, rfl⟩ := he
  have hmem : D.contains v := h.fits _ _ hv domain hdom s D u hs (attempt_eq_some.mp hD)
  cases hr
  exact Interval.mem_ofInts.mpr ⟨IntSet.min_le hmem hlo, IntSet.le_max hmem hhi⟩

theorem int_node (he : m.IntTerm e) (hs : ev.Reached m s)
    (hi : Integers.node ev bounds (m.kind e) s = .ok (some i) t) (hv : m.Takes ρ e (.int v)) : v ∈ i := by
  cases he with
  | lit hk =>
    simp only [Integers.node, hk] at hi
    cases hi
  | var hk ht hd =>
    simp only [Integers.node, hk] at hi
    exact h.int_domain hd hs hi (hv.of_ident hk)
  | @un _ op a fn hk ht hf ha =>
    simp only [Integers.node, hk] at hi
    obtain ⟨j, u, hj, hi⟩ := bind_eq_ok.mp hi
    obtain ⟨x, hx, hr⟩ := hv.of_un hk
    obtain ⟨x, rfl, ⟨rfl, rfl⟩ | ⟨rfl, hn⟩⟩ := Given.un_eq_int hr
    · obtain ⟨rfl, _⟩ := pure_eq_ok.mp hi
      exact h.int ha hs hj hx
    · obtain ⟨j', hj', hi⟩ := Option.map_eq_some_iff.mp (pure_eq_ok.mp hi).1
      exact hi ▸ Interval.mem_neg (h.int ha hs (hj' ▸ hj) hx) (Checked.neg_eq_some.mp hn)
  | bin hk ht hf hl hr =>
    simp only [Integers.node, hk] at hi
    obtain ⟨_, _, hx, hy, hxy⟩ := hv.of_bin hk
    obtain ⟨x, y, rfl, rfl, hop⟩ := Given.bin_eq_int hxy
    obtain ⟨a, b, u, ha, hb, hab⟩ := both_eq_ok hi
    have hu : ev.Reached m u := (h.leads .int _).of_ok ha hs
    exact Interval.mem_bin hab (h.int hl hs ha hx) (h.int hr hu hb hy) hop

theorem int_rule (he : m.IntTerm e) (hs : ev.Reached m s) (hi : Integers.rule ev bounds e s = .ok (some i) t)
    (hv : m.Takes ρ e (.int v)) : v ∈ i := by
  simp only [Integers.rule, model_bind, (h.carries hs).expr_eq he.kind_ne_anon] at hi
  split at hi
  · cases hi
  split at hi
  · split at hi
    · cases hi
    · -- A fixed expression has its value whatever the variables are.
      obtain ⟨w, u, hw, hi⟩ := bind_eq_ok.mp hi
      obtain ⟨w', hw', hi⟩ := Option.map_eq_some_iff.mp (pure_eq_ok.mp hi).1
      obtain ⟨_, ht⟩ := h.finds.int he (h.carries hs) (attempt_eq_some.mp (hw' ▸ hw))
      cases hv.unique ht
      exact hi ▸ Interval.mem_ofInts_self v
  · have he' := he
    cases he with
    | lit hk | var hk | un hk | bin hk =>
      simp only [show (m.expr e).kind = _ from hk] at hi
      split at hi
      · exact h.int_node he' hs (hk ▸ hi) hv
      · cases hi

end Integers

section Sets

variable {b S : IntSet}

theorem set_domain {d : DeclId} {bound : ExprId → EvalM (Option IntSet)} (hd : m.IsVariable (m.followFlat d))
    (hs : ev.Reached m s) (he : ofDecl bound (Sets.ofDomain ev) d s = .ok (some b) t)
    (hS : ρ (m.followFlat d) = some (.set S)) : ∀ v, S.contains v → b.contains v := by
  have hc := (h.carries hs).toContinues
  obtain ⟨domain, hdom, _⟩ := hd.domain
  simp only [ofDecl, model_bind, hc.followFlat_eq, hc.domain_eq, hdom, Sets.ofDomain, attempt_eq_some] at he
  exact h.fits _ _ hS domain hdom s b t hs he

omit h in
-- The range of one element.
theorem elem_eq_ok {a : ExprId} {r : Range}
    (he : (do
      let i ← OptionT.mk (bounds .int a)
      let (lo, hi) ← OptionT.mk (return Interval.finite? i)
      return (⟨lo, hi⟩ : Range) : OptionT EvalM Range).run s = .ok (some r) t) :
    bounds .int a s = .ok (some (Interval.ofInts r.lo r.hi)) t := by
  obtain ⟨i, u, hi, he⟩ := optional_bind_eq_ok.mp he
  obtain ⟨p, u', hp, he⟩ := optional_bind_eq_ok.mp he
  obtain ⟨hf, rfl⟩ := pure_eq_ok.mp hp
  obtain ⟨rfl, rfl⟩ := optional_pure_eq_ok.mp he
  exact Interval.eq_ofInts hf ▸ hi

theorem elems {es : List ExprId} {vs : List Int64} (hes : ∀ a ∈ es, m.IntTerm a) (hs : ev.Reached m s)
    (he : Sets.elems bounds es s = .ok (some b) t) (hvs : List.Forall₂ (fun a v => m.Takes ρ a (.int v)) es vs) :
    ∀ v ∈ vs, b.contains v := by
  obtain ⟨ranges, u, hr, hb⟩ := optional_bind_eq_ok.mp he
  obtain ⟨rfl, _⟩ := optional_pure_eq_ok.mp hb
  simp only [IntSet.contains_ofRanges]
  clear he hb
  induction hvs generalizing s ranges with
  | nil => simp
  | @cons a v es vs ha _ ih =>
    rw [List.mapM_cons] at hr
    obtain ⟨r, u₁, hr₁, hr⟩ := optional_bind_eq_ok.mp hr
    obtain ⟨rs, u₂, hrs, hr⟩ := optional_bind_eq_ok.mp hr
    obtain ⟨rfl, rfl⟩ := optional_pure_eq_ok.mp hr
    have hi := elem_eq_ok hr₁
    have hmem := Interval.mem_ofInts.mp (h.int (hes a List.mem_cons_self) hs hi ha)
    have hu : ev.Reached m u₁ := (h.leads .int a).of_ok hi hs
    intro w hw
    rw [covers_cons]
    rcases List.mem_cons.mp hw with rfl | hw
    · exact .inl hmem
    · exact .inr (ih (fun a ha => hes a (List.mem_cons_of_mem _ ha)) hu rs hrs w hw)

theorem set_range {l r : ExprId} {x y : Int64} (hl : m.IntTerm l) (hr : m.IntTerm r) (hs : ev.Reached m s)
    (he : Sets.range bounds l r s = .ok (some b) t) (hx : m.Takes ρ l (.int x)) (hy : m.Takes ρ r (.int y)) :
    ∀ v, (IntSet.range x y).contains v → b.contains v := by
  simp only [Sets.range, bind_eq_ok, pure_eq_ok, Option.bind_eq_bind, Option.bind_eq_some_iff] at he
  obtain ⟨_, u, hi, _, w, hj, ⟨i, rfl, j, rfl, lo, hlo, hi', hhi, hb⟩, rfl⟩ := he
  obtain rfl := Option.some.inj hb
  have hxi := (Interval.mem_iff.mp (h.int hl hs hi hx)).1
  have hyj := (Interval.mem_iff.mp (h.int hr ((h.leads .int l).of_ok hi hs) hj hy)).2
  have hle := hxi.le hlo
  have hge := hyj.le hhi
  intro v hv
  simp only [IntSet.contains_range, Int64.le_iff_toInt_le] at hv ⊢
  omega

omit h in
-- The operands are bounded from above only.
theorem setOp_subset {op : BinOp} {A B a c : IntSet} (hS : setOp .intSet op A B = .ok S)
    (hb : Sets.bin? op a c = some b) (hA : ∀ v, A.contains v → a.contains v)
    (hB : ∀ v, B.contains v → c.contains v) : ∀ v, S.contains v → b.contains v := by
  intro v hv
  cases op <;> cases hb <;> cases hS
  · exact IntSet.contains_union.mpr ((IntSet.contains_union.mp hv).imp (hA v) (hB v))
  · exact hA v (((IntSet.diff_spec A B).2 v).mp hv).1
  · exact IntSet.contains_union.mpr (.inl (hA v (IntSet.contains_inter.mp hv).1))

theorem set_both {op : BinOp} {l r : ExprId} {A B : IntSet} (hl : m.SetTerm l) (hr : m.SetTerm r)
    (hs : ev.Reached m s) (he : both (bounds .intSet) l r (Sets.bin? op) s = .ok (some b) t)
    (hA : m.Takes ρ l (.set A)) (hB : m.Takes ρ r (.set B)) (hS : setOp .intSet op A B = .ok S) :
    ∀ v, S.contains v → b.contains v := by
  obtain ⟨a, c, u, ha, hc, hb⟩ := both_eq_ok he
  have hu : ev.Reached m u := (h.leads .intSet l).of_ok ha hs
  exact setOp_subset hS hb (h.set hl hs ha hA) (h.set hr hu hc hB)

theorem set_call {name : String} {op : BinOp} {l r : ExprId} {A B : IntSet} (hn : setFunction? name = some op)
    (hl : m.SetTerm l) (hr : m.SetTerm r) (hs : ev.Reached m s) (he : Sets.call bounds name [l, r] s = .ok (some b) t)
    (hA : m.Takes ρ l (.set A)) (hB : m.Takes ρ r (.set B)) (hS : setOp .intSet op A B = .ok S) :
    ∀ v, S.contains v → b.contains v := by
  unfold setFunction? at hn
  split at hn <;> cases hn
  · exact h.set_both hl hr hs he hA hB hS
  · -- An intersection has the bounds of the union.
    obtain ⟨a, c, u, ha, hc, hb⟩ := both_eq_ok he
    have hu : ev.Reached m u := (h.leads .intSet l).of_ok ha hs
    exact setOp_subset hS hb (h.set hl hs ha hA) (h.set hr hu hc hB)
  · have ha : ∀ v, A.contains v → b.contains v := h.set hl hs he hA
    exact setOp_subset (c := B) hS rfl ha fun _ => id

theorem set_node (he : m.SetTerm e) (hs : ev.Reached m s) (hb : Sets.node ev bounds (m.kind e) s = .ok (some b) t)
    (hS : m.Takes ρ e (.set S)) : ∀ v, S.contains v → b.contains v := by
  cases he with
  | lit hk =>
    simp only [Sets.node, hk] at hb
    cases hb
  | var hk hd =>
    simp only [Sets.node, hk] at hb
    exact h.set_domain hd hs hb (hS.of_ident hk)
  | elems hk hes =>
    simp only [Sets.node, hk] at hb
    obtain ⟨vs, ⟨⟩, hvs⟩ := hS.of_setLit hk
    intro v hv
    exact h.elems hes hs hb hvs v (IntSet.contains_ofValues.mp hv)
  | range hk hf hl hr =>
    simp only [Sets.node, hk] at hb
    obtain ⟨_, _, hx, hy, hxy⟩ := hS.of_bin hk
    obtain ⟨x, y, rfl, rfl, rfl⟩ := Given.range_eq_set hxy
    exact h.set_range hl hr hs hb hx hy
  | @bin _ op l r fn hk hop hf hl hr =>
    have hn : Sets.node ev bounds (.bin op l r fn) = both (bounds .intSet) l r (Sets.bin? op) := by
      cases op <;> first | rfl | contradiction
    rw [hk, hn] at hb
    obtain ⟨_, _, hx, hy, hxy⟩ := hS.of_bin hk
    obtain ⟨A, B, rfl, rfl, ho⟩ := Given.bin_eq_set hop hxy
    exact h.set_both hl hr hs hb hx hy ho
  | call hk hn hf ha hc =>
    simp only [Sets.node, hk] at hb
    obtain ⟨_, _, hx, hy, hxy⟩ := hS.of_call hk hn
    obtain ⟨A, B, rfl, rfl, ho⟩ := Given.bin_eq_set (setFunction_ne_range hn) hxy
    exact h.set_call hn ha hc hs hb hx hy ho

theorem set_rule (he : m.SetTerm e) (hs : ev.Reached m s) (hb : Sets.rule ev bounds e s = .ok (some b) t)
    (hS : m.Takes ρ e (.set S)) : ∀ v, S.contains v → b.contains v := by
  simp only [Sets.rule, model_bind, (h.carries hs).expr_eq he.kind_ne_anon] at hb
  split at hb
  · cases hb
  split at hb
  · obtain ⟨_, hb⟩ := h.finds.set he (h.carries hs) (attempt_eq_some.mp hb)
    cases hS.unique hb
    exact fun _ => id
  · exact h.set_node he hs hb hS

end Sets

end Spans

theorem spans_run {m : Model} {ρ : DeclId → Option Given} {limit fuel : Nat}
    (hf : ∀ d g, ρ d = some g → g.Fits (Eval.run limit fuel) m d) (n : Nat) :
    Spans (Eval.run limit fuel) m ρ (run (Eval.run limit fuel) n) := by
  induction n with
  | zero =>
    exact {
      framing := framing_run limit fuel
      finds := finds_run m ρ limit fuel
      fits := hf
      leads := keeps_run keeps_leads 0
      int := fun _ _ h => by cases h
      set := fun _ _ h => by cases h }
  | succ n ih =>
    exact {
      framing := framing_run limit fuel
      finds := finds_run m ρ limit fuel
      fits := hf
      leads := keeps_run keeps_leads (n + 1)
      int := fun he hs hi hv => ih.int_rule he hs hi hv
      set := fun he hs hb hS => ih.set_rule he hs hb hS }

end Bounds

namespace Model

variable {m : Model} {σ : List (DeclId × Given)}

-- A declaration takes what it is given as its initializer.
def supply (m : Model) (p : DeclId × Given) : Model :=
  let (e, m) := Build.expr p.2.kind p.2.ty {} m
  m.setInit p.1 (some e)

def supplied (m : Model) (σ : List (DeclId × Given)) : Model := σ.foldl supply m

-- Each variable is given what its domain has.
def Permits (m : Model) (σ : List (DeclId × Given)) : Prop :=
  ∀ p ∈ σ, m.IsVariable p.1 ∧ p.2.Fits m.evaluator m p.1

-- A domain that is a literal has the same elements at all times.
theorem permits_of_literals (h : ∀ p ∈ σ, m.IsVariable p.1 ∧ ∃ domain D,
    m.domain p.1 = some domain ∧ m.kind domain = .intSet D ∧ p.2.Within D) : m.Permits σ := by
  intro p hp
  obtain ⟨hv, domain, D, hd, hk, hc⟩ := h p hp
  refine ⟨hv, fun domain' hd' s D' t hs he => ?_⟩
  obtain rfl : domain = domain' := Option.some.inj (hd.symm.trans hd')
  have hs := (Machine.Framed.continues (hs.of_keeps (framing_run _ _ [])))
  have hk' : s.model.kind domain = .intSet D := (hs.kind_eq (by simp [hk])).trans hk
  exact (run_literal (fun _ => rfl) (by rw [hk']; rfl) he).1 ▸ hc

end Model

section Supplies

variable {m : Model} {ρ : DeclId → Option Given} {s : Machine} {σ : List (DeclId × Given)}

theorem Machine.Carries.supplied (h : s.Carries m ρ) :
    Carries m (σ.foldl valueIn ρ) { s with model := s.model.supplied σ } := by
  induction σ generalizing ρ s with
  | nil => exact h
  | cons p σ ih =>
    exact ih (h.hold (f := ({ · with init := some ⟨s.model.exprs.size⟩ })) p.2 (fun _ => rfl) fun _ => rfl)

end Supplies

section Count

variable {m : Model} {ρ : DeclId → Option Given} {ev : Eval} {bounds : Bounds.Analysis} {s t : Machine} {e c : ExprId}
  {fn : Option FuncId} {b S : IntSet}

-- The bounds of a set are those of a set of integers.
theorem Bounds.Sets.base_ne_bool (hb : Sets.rule ev bounds e s = .ok (some b) t) : (s.model.ty e).base ≠ .bool := by
  intro hbool
  have hn : (s.model.expr e).ty.isIntSet = false := by
    simp [Ty.isIntSet, Ty.isSetOf, show (s.model.expr e).ty.base = _ from hbool]
  simp only [rule, model_bind, hn, Bool.not_false, Bool.or_true, if_true] at hb
  cases hb

-- A count has bounds if it is fixed, and else by those of the set.
theorem Bounds.Integers.card_rule {i : Interval} (hk : s.model.kind c = .call "card" [e] fn)
    (hi : Integers.rule ev bounds c s = .ok (some i) t) :
    (∃ v u, (s.model.ty c).isInt ∧ ev.int c s = .ok v u ∧ i = .ofInts v v) ∨
      ∃ (b : IntSet) (u : Machine), bounds .intSet e s = .ok (some b) u ∧
        i = ⟨.finite 0, (Checked.ofInt? b.card).elim .posInf .finite⟩ := by
  simp only [rule, model_bind] at hi
  split at hi
  · cases hi
  split at hi
  · split at hi
    · cases hi
    · next hty =>
      have hty : (s.model.ty c).isInt := by simpa [Model.ty] using hty
      obtain ⟨w, u, hw, hi⟩ := bind_eq_ok.mp hi
      obtain ⟨v, rfl, hv⟩ := Option.map_eq_some_iff.mp (pure_eq_ok.mp hi).1
      exact .inl ⟨v, u, hty, attempt_eq_some.mp hw, hv.symm⟩
  · simp only [show (s.model.expr c).kind = _ from hk] at hi
    split at hi
    · obtain ⟨o, u, ho, hi⟩ := bind_eq_ok.mp hi
      obtain ⟨b, rfl, hb⟩ := Option.map_eq_some_iff.mp (pure_eq_ok.mp hi).1
      exact .inr ⟨b, u, ho, hb.symm⟩
    · cases hi

theorem Finds.card (h : Finds m ρ ev) {span : Span} {v : Int64} (hs : s.Carries m ρ) (he : m.SetTerm e)
    (hn : (m.ty e).base ≠ .bool) (hv : intBuiltin ev "card" [e] span s = .ok v t) :
    ∃ S, m.Takes ρ e (.set S) ∧ v.toInt = S.card := by
  simp only [intBuiltin, Eval.card, bind_eq_ok, model_bind, hs.ty_eq he.kind_ne_anon, hn, if_false, ofCause_eq_ok,
    overflowing_eq_ok, pure_eq_ok] at hv
  obtain ⟨_, _, ⟨S, w, hS, rfl, rfl⟩, hv, rfl⟩ := hv
  exact ⟨S, (h.set he hs hS).2, Checked.ofInt?_eq_some.mp hv⟩

-- A fixed count is that of the elements.
theorem card_value {limit fuel : Nat} {v : Int64} (hs : s.Carries m ρ) (hk : m.kind c = .call "card" [e] fn)
    (hf : m.withBody? fn = none) (hc : (m.ty c).isInt) (he : m.SetTerm e) (hn : (m.ty e).base ≠ .bool)
    (hv : (Eval.run limit fuel).int c s = .ok v t) : ∃ S, m.Takes ρ e (.set S) ∧ v.toInt = S.card := by
  have hca : m.kind c ≠ .anon := by simp [hk]
  cases fuel with
  | zero => cases hv
  | succ fuel =>
    change valueStep _ _ .int c s = _ at hv
    rw [valueStep_eq (fromSmaller_int (hs.ty_eq hca ▸ hc)), hs.expr_eq hca, hs.kind_eq hca, hk] at hv
    exact (finds_run m ρ limit fuel).card hs he hn ((compound_call hk ((hs.withBody_eq fn).trans hf)).mp hv)

end Count

-- Bounds of a set have every element that it comes to have by an assignment from the domains, in the
-- model or in what evaluations have made of it, and so do bounds of the count, unless every integer
-- may be an element.
theorem set_bounds_contain_elements {m m' : Model} {e : ExprId} {σ : List (DeclId × Given)} {b S : IntSet} {limit : Nat}
    (he : m.SetTerm e) (hσ : m.Permits σ) (hm : m.evaluator.Reached m { model := m' })
    (hb : (m.bounds .intSet e).1 = .ok (some b))
    (hS : ((m'.supplied σ).evaluate (.value .intSet) e limit).1 = .ok S) :
    (∀ v, S.contains v → b.contains v) ∧
      (b ≠ .full → ∀ c fn, m.kind c = .call "card" [e] fn → m.withBody? fn = none → ∀ i : Interval,
        (m.bounds .int c).1 = .ok (some i) →
          i.lo.Below {v | S.contains v}.ncard ∧ i.hi.Above {v | S.contains v}.ncard) := by
  have hf : ∀ d g, σ.foldl valueIn (fun _ => none) d = some g → g.Fits m.evaluator m d := by
    intro d g hg
    exact (hσ _ ((mem_of_valueIn hg).resolve_left (by simp))).2
  obtain ⟨t, hb⟩ := runEval_eq_ok.mp hb
  obtain ⟨u, hS⟩ := runEval_eq_ok.mp hS
  have hs : Machine.Carries m (σ.foldl valueIn fun _ => none) { model := m'.supplied σ } :=
    (Machine.Framed.carries (hm.of_keeps (framing_run _ _ [])) _).supplied
  have htakes := ((finds_run m _ limit _).set he hs hS).2
  have hsub := (Bounds.spans_run hf _).set he .start hb htakes
  refine ⟨hsub, fun hfull c fn hk hfn i hi => ?_⟩
  obtain ⟨w, hi⟩ := runEval_eq_ok.mp hi
  have hcard := IntSet.card_eq_ncard (IntSet.ne_full_of_subset hsub hfull)
  have hstart := (Bounds.spans_run hf 0).carries .start
  generalize fuelFor defaultLimit m = n at hi hb
  cases n with
  | zero => cases hi
  | succ n =>
    obtain ⟨v, _, hty, hv, rfl⟩ | ⟨b', u, hb', rfl⟩ := Bounds.Integers.card_rule hk hi
    · obtain ⟨S', hS', hv⟩ := card_value hstart hk hfn hty he (Bounds.Sets.base_ne_bool hb) hv
      cases htakes.unique hS'
      simp [Interval.ofInts, hv, hcard]
    · cases hb.symm.trans (Bounds.lasts_run _ _ _ _ _ _ _ hb')
      refine ⟨by simp, ?_⟩
      cases ho : Checked.ofInt? b.card with
      | none => trivial
      | some w =>
        have hle := IntSet.ncard_mono hsub
        rw [← IntSet.card_eq_ncard hfull] at hle
        simp only [Option.elim, Bound.above_finite, Checked.ofInt?_eq_some.mp ho]
        omega

section Joined

-- `card(x union {y})`, where `x` has its elements and `y` is from 1 to 4.
def joinedModel : Model where
  exprs := #[{ kind := .intSet ⟨[⟨1, 4⟩], show (1 : Int64) ≤ 4 by decide⟩, ty := .parSetInt },
    { kind := .ident "x" (some ⟨0⟩), ty := .varSetInt }, { kind := .ident "y" (some ⟨1⟩), ty := .varInt },
    { kind := .setLit [⟨2⟩], ty := .varSetInt }, { kind := .bin .union ⟨1⟩ ⟨3⟩ none, ty := .varSetInt },
    { kind := .call "card" [⟨4⟩] none, ty := .varInt }]
  decls := #[{ name := "x", ti := ⟨0⟩, ty := .varSetInt }, { name := "y", ti := ⟨1⟩, ty := .varInt }]
  typeInsts := #[{ ty := .varSetInt, domain := some ⟨0⟩ }, { ty := .varInt, domain := some ⟨0⟩ }]

def joinedValues : List (DeclId × Given) :=
  [(⟨0⟩, .set ⟨[⟨1, 1⟩], show (1 : Int64) ≤ 1 by decide⟩), (⟨1⟩, .int 3)]

theorem permits_joined : joinedModel.Permits joinedValues :=
  Model.permits_of_literals fun p hp => by
    simp only [joinedValues, List.mem_cons, List.not_mem_nil, or_false] at hp
    rcases hp with rfl | rfl
    · refine ⟨⟨rfl, ⟨0⟩, rfl, trivial⟩, ⟨0⟩, _, rfl, rfl, fun v hv => ?_⟩
      obtain ⟨r, hr, hlo, hhi⟩ := IntSet.contains_iff.mp hv
      obtain rfl := List.mem_singleton.mp hr
      exact IntSet.contains_iff.mpr ⟨⟨1, 4⟩, List.mem_singleton_self _, hlo, hhi.trans (by decide)⟩
    · exact ⟨⟨rfl, ⟨0⟩, rfl, trivial⟩, ⟨0⟩, _, rfl, rfl, show IntSet.contains _ _ by decide⟩

theorem setTerm_joined : joinedModel.SetTerm ⟨4⟩ := by
  have hy : joinedModel.IntTerm ⟨2⟩ := .var rfl rfl ⟨rfl, ⟨0⟩, rfl, trivial⟩
  have hx : joinedModel.SetTerm ⟨1⟩ := .var rfl ⟨rfl, ⟨0⟩, rfl, trivial⟩
  exact .bin rfl (by decide) rfl hx (.elems rfl fun a ha => List.mem_singleton.mp ha ▸ hy)

theorem set_bounds_contain_elements_joined :
    (joinedModel.bounds .intSet ⟨4⟩).1 = .ok (some (⟨[⟨1, 4⟩], show (1 : Int64) ≤ 4 by decide⟩ : IntSet)) ∧
      ((joinedModel.supplied joinedValues).evaluate (.value .intSet) ⟨4⟩).1 =
        .ok (⟨[⟨1, 1⟩, ⟨3, 3⟩], by simp [Separated]⟩ : IntSet) ∧
      (joinedModel.bounds .int ⟨5⟩).1 = .ok (some (.ofInts 0 4)) ∧
      (Bound.finite 0).Below 2 ∧ (Bound.finite 4).Above 2 := by
  have hb : (joinedModel.bounds .intSet ⟨4⟩).1 =
      .ok (some (⟨[⟨1, 4⟩], show (1 : Int64) ≤ 4 by decide⟩ : IntSet)) := by cbv
  have hS : ((joinedModel.supplied joinedValues).evaluate (.value .intSet) ⟨4⟩).1 =
      .ok (⟨[⟨1, 1⟩, ⟨3, 3⟩], by simp [Separated]⟩ : IntSet) := by cbv
  have hi : (joinedModel.bounds .int ⟨5⟩).1 = .ok (some (.ofInts 0 4)) := by cbv
  have hfull : (⟨[⟨1, 4⟩], show (1 : Int64) ≤ 4 by decide⟩ : IntSet) ≠ .full := IntSet.ne_full (by decide)
  have hc := (set_bounds_contain_elements setTerm_joined permits_joined .start hb hS).2 hfull ⟨5⟩ none rfl rfl _ hi
  rw [IntSet.ncard_eq_length_values, IntSet.length_values] at hc
  exact ⟨hb, hS, hi, hc⟩

end Joined

end Parvar
