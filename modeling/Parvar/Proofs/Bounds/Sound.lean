import Parvar.Proofs.Bounds.Interval
import Parvar.Proofs.Bounds.Reached
import Parvar.Proofs.Eval.Agreement
import Parvar.Proofs.IntSet.Ends

/-!
Bounds of integer expressions hold every value. The values are those of the meaning of an
expression, for any values of its variables that lie in their domains.
-/

namespace Parvar

namespace Bounds

open EvalM Eval

section Optional

variable {α β : Type} {s t : Machine}

theorem optional_bind_eq_ok {x : OptionT EvalM α} {f : α → OptionT EvalM β} {b : β} :
    (x >>= f).run s = .ok (some b) t ↔
      ∃ a u, x.run s = .ok (some a) u ∧ (f a).run u = .ok (some b) t := by
  rw [OptionT.run_bind, Option.elimM, bind_eq_ok]
  constructor
  · rintro ⟨a, u, ha, hb⟩
    cases a with
    | none => simp at hb
    | some a => exact ⟨a, u, ha, hb⟩
  · rintro ⟨a, u, ha, hb⟩
    exact ⟨some a, u, ha, hb⟩

theorem optional_pure_eq_ok {a b : α} :
    (pure a : OptionT EvalM α).run s = .ok (some b) t ↔ a = b ∧ s = t := by
  change (pure (some a) : EvalM (Option α)) s = _ ↔ _
  simp

theorem optional_guard_eq_ok {p : Prop} [Decidable p] {u : Unit} :
    (guard p : OptionT EvalM Unit).run s = .ok (some u) t ↔ p ∧ s = t := by
  unfold guard
  split
  · next h => exact optional_pure_eq_ok.trans (by simp [h])
  · next h =>
    change (pure none : EvalM (Option Unit)) s = _ ↔ _
    simp [h]

theorem optional_model_eq_ok {m : Model} :
    (liftM model : OptionT EvalM Model).run s = .ok (some m) t ↔ s.model = m ∧ s = t := by
  change (model >>= fun a => pure (some a)) s = _ ↔ _
  simp

theorem both_eq_ok {l r : ExprId} {bound : ExprId → EvalM (Option α)} {f : α → α → Option α} {c : α}
    (he : both bound l r f s = .ok (some c) t) :
    ∃ a b u, bound l s = .ok (some a) u ∧ bound r u = .ok (some b) t ∧ f a b = some c := by
  simp only [both, bind_eq_ok, pure_eq_ok, Option.bind_eq_bind, Option.bind_eq_some_iff] at he
  obtain ⟨a, u, ha, b, w, hb, ⟨j, hj, k, hk, hf⟩, rfl⟩ := he
  exact ⟨j, k, u, hj ▸ ha, hk ▸ hb, hf⟩

end Optional

-- Values that lie in the domains of their variables, whenever these are evaluated.
def Within (ev : Eval) (m : Model) (ρ : DeclId → Option Int64) : Prop :=
  ∀ d v, ρ d = some v → ∀ domain, m.domain d = some domain → ∀ s S t, ev.Reached m s →
    ev.intSet domain s = .ok S t → S.contains v

-- An analysis whose intervals hold all values that integer expressions can take.
def Holding (ev : Eval) (m : Model) (ρ : DeclId → Option Int64) (bounds : Analysis) : Prop :=
  ∀ {e s t} {i : Interval}, m.Arithmetic .int e → ev.Reached m s →
    bounds .int e s = .ok (some i) t → ∀ {n v}, (Meaning.upTo m ρ n).int e = some v → v ∈ i

structure Setting (ev : Eval) (m : Model) (ρ : DeclId → Option Int64) (bounds : Analysis) :
    Prop where
  framing : Framing ev
  agrees : ∃ fuel, Meaning.Agrees m ρ ev (Meaning.upTo m ρ fuel)
  within : Within ev m ρ
  leads : ∀ k e, Keeps (Leads ev m) (bounds k e)
  holding : Holding ev m ρ bounds

namespace Setting

variable {ev : Eval} {m : Model} {ρ : DeclId → Option Int64} {bounds : Analysis}
  (h : Setting ev m ρ bounds) {s t : Machine} {e : ExprId} {i : Interval} {v : Int64} {n : Nat}
include h

theorem holds (hs : ev.Reached m s) : s.Holds m ρ :=
  Machine.Framed.holds (hs.of_keeps (h.framing [])) ρ

theorem int_unique {w : Int64} (he : m.Arithmetic .int e) (hs : ev.Reached m s)
    (hw : ev.int e s = .ok w t) (hv : (Meaning.upTo m ρ n).int e = some v) : v = w := by
  have ⟨_, ha⟩ := h.agrees
  exact Meaning.int_unique hv (ha.int he (h.holds hs) hw).2

theorem bool_unique {a b : Bool} (he : m.Arithmetic .bool e) (hs : ev.Reached m s)
    (hb : ev.bool e s = .ok b t) (ha : (Meaning.upTo m ρ n).bool e = some a) : a = b := by
  have ⟨_, hag⟩ := h.agrees
  exact Meaning.bool_unique ha (hag.bool he (h.holds hs) hb).2

section Branches

variable {bound : ExprId → EvalM (Option Interval)} {otherwise : ExprId}

omit h in
theorem join_eq_ok {branch : ExprId} {acc : Option Interval} :
    (do return (← bound branch).bind fun b => acc.map (Interval.hull · b)) s = .ok (some i) t ↔
      ∃ b a, bound branch s = .ok (some b) t ∧ acc = some a ∧ i = a.hull b := by
  simp only [bind_eq_ok, pure_eq_ok, Option.bind_eq_some_iff, Option.map_eq_some_iff]
  constructor
  · rintro ⟨_, _, hb, ⟨b, rfl, a, rfl, rfl⟩, rfl⟩
    exact ⟨b, a, hb, rfl, rfl⟩
  · rintro ⟨b, a, hb, rfl, rfl⟩
    exact ⟨_, _, hb, ⟨b, rfl, a, rfl, rfl⟩, rfl⟩

omit h in
-- What was bounded before stays within the bounds.
theorem acc_subset : ∀ {bs : List (ExprId × ExprId)} {acc : Option Interval} {s},
    branches ev bound Interval.hull otherwise acc bs s = .ok (some i) t →
      ∃ a, acc = some a ∧ ∀ v ∈ a, v ∈ i
  | [], acc, s, he => by
    have ⟨b, a, _, ha, hi⟩ := join_eq_ok.mp he
    exact ⟨a, ha, fun v hv => hi ▸ Interval.mem_hull (.inl hv)⟩
  | (c, b) :: rest, acc, s, he => by
    simp only [branches, model_bind] at he
    split at he
    · have ⟨r, u, hr, he⟩ := bind_eq_ok.mp he
      match r with
      | some true =>
        have ⟨b, a, _, ha, hi⟩ := join_eq_ok.mp he
        exact ⟨a, ha, fun v hv => hi ▸ Interval.mem_hull (.inl hv)⟩
      | some false => exact acc_subset he
      | none => simp at he
    · have ⟨r, u, hr, he⟩ := bind_eq_ok.mp he
      have ⟨j, hj, hsub⟩ := acc_subset he
      obtain rfl := hj
      have ⟨b, a, _, ha, hi⟩ := join_eq_ok.mp hr
      exact ⟨a, ha, fun v hv => hsub v (hi ▸ Interval.mem_hull (.inl hv))⟩

variable (hl : ∀ e, Keeps (Leads ev m) (bound e))
  (hb : ∀ {e s t} {i : Interval}, m.Arithmetic .int e → ev.Reached m s →
    bound e s = .ok (some i) t → ∀ {n v}, (Meaning.upTo m ρ n).int e = some v → v ∈ i)
include hl hb

theorem branches_sound (ho : m.Arithmetic .int otherwise) :
    ∀ {bs : List (ExprId × ExprId)} {acc : Option Interval} {s r},
      (∀ b ∈ bs, m.Arithmetic .bool b.1) → (∀ b ∈ bs, m.Arithmetic .int b.2) → ev.Reached m s →
        branches ev bound Interval.hull otherwise acc bs s = .ok (some i) t →
          Meaning.choose (Meaning.upTo m ρ n).bool otherwise bs = some r →
            (Meaning.upTo m ρ n).int r = some v → v ∈ i
  | [], acc, s, r, _, _, hs, he, hr, hv => by
    obtain ⟨b, a, hb', _, hi⟩ := join_eq_ok.mp he
    obtain rfl := Option.some.inj hr
    exact hi ▸ Interval.mem_hull (.inr (hb ho hs hb' hv))
  | (c, b) :: rest, acc, s, r, hc, hbs, hs, he, hr, hv => by
    have hc₀ : m.Arithmetic .bool c := hc _ List.mem_cons_self
    have hb₀ : m.Arithmetic .int b := hbs _ List.mem_cons_self
    have hc' := fun b hb => hc b (List.mem_cons_of_mem _ hb)
    have hbs' := fun b hb => hbs b (List.mem_cons_of_mem _ hb)
    simp only [Meaning.choose, Option.bind_eq_bind, Option.bind_eq_some_iff] at hr
    obtain ⟨x, hx, hr⟩ := hr
    simp only [branches, model_bind] at he
    split at he
    · obtain ⟨y, u, hy, he⟩ := bind_eq_ok.mp he
      have hu : ev.Reached m u := (keeps_attempt (keeps_leads _ _)).of_ok hy hs
      cases y with
      | none => simp at he
      | some y =>
        -- A fixed condition has the same truth whatever the values are.
        obtain rfl := h.bool_unique hc₀ hs (attempt_eq_some.mp hy) hx
        cases x with
        | true =>
          obtain ⟨j, a, hj, _, hi⟩ := join_eq_ok.mp he
          obtain rfl := Option.some.inj hr
          exact hi ▸ Interval.mem_hull (.inr (hb hb₀ hu hj hv))
        | false => exact branches_sound ho hc' hbs' hu he hr hv
    · obtain ⟨y, u, hy, he⟩ := bind_eq_ok.mp he
      have hu : ev.Reached m u :=
        (Keeps.bind (hl b) fun _ => Keeps.pure _ : Keeps (Leads ev m) _).of_ok hy hs
      cases x with
      | true =>
        obtain ⟨j, hj, hsub⟩ := acc_subset he
        obtain rfl := hj
        obtain ⟨k, a, hk, _, hi⟩ := join_eq_ok.mp hy
        obtain rfl := Option.some.inj hr
        exact hsub v (hi ▸ Interval.mem_hull (.inr (hb hb₀ hs hk hv)))
      | false => exact branches_sound ho hc' hbs' hu he hr hv

end Branches

section Linear

-- The terms of a sum are added up from the left, as their values are.
theorem terms_sound : ∀ {terms : List (Int64 × ExprId)} {pairs : List (Int64 × Int64)}
    {i₀ : Interval} {s sum},
    List.Forall₂ (fun p q => p.1 = q.1 ∧ m.Arithmetic .int p.2 ∧
      (Meaning.upTo m ρ n).int p.2 = some q.2) terms pairs → ev.Reached m s →
        (terms.foldlM (fun (i : Interval) (a, x) => do
          let b ← OptionT.mk (bounds .int x)
          OptionT.mk (return i.addScaled? a b)) i₀ : OptionT EvalM Interval).run s =
            .ok (some i) t → sum ∈ i₀ → intLinear sum pairs = some v → v ∈ i
  | [], _, i₀, s, sum, .nil, hs, he, hi, hv => by
    obtain ⟨rfl, rfl⟩ := optional_pure_eq_ok.mp he
    cases hv
    exact hi
  | (a, x) :: terms, _, i₀, s, sum, .cons (b := (b, y)) ⟨hab, hx, hy⟩ hrest, hs, he, hi, hv => by
    obtain rfl : a = b := hab
    rw [List.foldlM_cons, optional_bind_eq_ok] at he
    have ⟨j, u, hj, he⟩ := he
    obtain ⟨k, u', hk, hj⟩ : ∃ (k : Interval) (u' : Machine), bounds .int x s = .ok (some k) u' ∧
        (pure (i₀.addScaled? a k) : EvalM (Option Interval)) u' = .ok (some j) u :=
      optional_bind_eq_ok.mp hj
    obtain ⟨hadd, rfl⟩ := pure_eq_ok.mp hj
    have hu : ev.Reached m u' := (h.leads .int x).of_ok hk hs
    simp only [intLinear, List.foldlM_cons, Option.bind_eq_bind, Option.bind_eq_some_iff] at hv
    have ⟨sum', ⟨p, hp, hsum⟩, hv⟩ := hv
    have hyk : y ∈ k := h.holding hx hs hk hy
    have hmem := Interval.mem_addScaled hadd hi hyk (Checked.mul_eq_some.mp hp)
      (Checked.add_eq_some.mp hsum)
    exact terms_sound hrest hu he hmem hv

theorem elemsOf_literal {array : ExprId} {xs ys : List ExprId} {dims : Dims}
    (hk : m.kind array = .arrayLit xs dims) (hs : ev.Reached m s)
    (he : elemsOf? ev array s = .ok (some ys) t) : ys = xs ∧ s = t := by
  obtain ⟨_, ha⟩ := h.agrees
  have hk' := ((h.holds hs).kind_eq (e := array) (by simp [hk])).trans hk
  simp only [elemsOf?, bind_eq_ok, pure_eq_ok, Option.map_eq_some_iff] at he
  obtain ⟨_, u, he, ⟨_, rfl, hys⟩, hu⟩ := he
  simp only [attempt_eq_some, arrayElems, bind_eq_ok, model_bind] at he
  obtain ⟨a, w, hw, he⟩ := he
  obtain ⟨rfl, rfl⟩ := ha.array hk' hw
  simp only [hk', pure_eq_ok] at he
  exact ⟨by simp [← hys, ← he.1], he.2.trans hu⟩

-- The coefficients are what they mean.
theorem coefficients_eq {weights : ExprId} {ws xs : List ExprId} {dims : Dims} {as bs : List Int64}
    (hk : m.kind weights = .arrayLit ws dims) (hws : ∀ w ∈ ws, m.Arithmetic .int w)
    (hs : ev.Reached m s)
    (he : (coefficientsOf ev .int (1 : Int64) xs (some weights)).run s = .ok (some as) t)
    (hb : (Meaning.upTo m ρ n).ints m weights = some bs) : bs = as := by
  have ⟨ys, u, hy, he⟩ := optional_bind_eq_ok.mp he
  obtain ⟨rfl, rfl⟩ := h.elemsOf_literal hk hs hy
  have he : ys.mapM (ev.value .int) s = .ok as t := attempt_eq_some.mp he
  have hf : List.Forall₂ (fun w a => ∀ v, (Meaning.upTo m ρ n).int w = some v → v = a) ys as :=
    (mapM_eq_ok (P := ev.Reached m) (fun w hw _ _ _ hs he =>
      ⟨(keeps_leads (.value .int) w).of_ok he hs, fun v hv => h.int_unique (hws w hw) hs he hv⟩)
        hs he).2
  simp only [Meaning.ints, hk] at hb
  have hg := mapM_eq_some_iff.mp hb
  exact forall₂_unique hg hf fun _ _ _ ha hb => hb _ ha

-- The parts of a linear expression over an array literal.
theorem linear_parts {coefficients constant : Option ExprId} {array : ExprId} {xs : List ExprId}
    {dims : Dims} {l : Linear Int64} (hk : m.kind array = .arrayLit xs dims) (hs : ev.Reached m s)
    (he : linear? ev .int (1 : Int64) (0 : Int64) coefficients array constant s = .ok (some l) t) :
    ev.Reached m t ∧ ∃ as, l.terms = as.zip xs ∧ as.length = xs.length ∧
      (∃ u, (coefficientsOf ev .int (1 : Int64) xs coefficients).run s = .ok (some as) u ∧
        ev.Reached m u ∧
          (constantOf ev .int (0 : Int64) constant).run u = .ok (some l.constant) t) := by
  have ht := (keeps_linear keeps_leads .int (1 : Int64) (0 : Int64) _ _ _).of_ok he hs
  have ⟨_, _, hm, he⟩ := optional_bind_eq_ok.mp he
  obtain ⟨_, rfl⟩ := optional_model_eq_ok.mp hm
  have ⟨_, _, hg, he⟩ := optional_bind_eq_ok.mp he
  obtain ⟨_, rfl⟩ := optional_guard_eq_ok.mp hg
  have ⟨ys, _, hx, he⟩ := optional_bind_eq_ok.mp he
  obtain ⟨rfl, rfl⟩ := h.elemsOf_literal hk hs hx
  have ⟨as, u, has, he⟩ := optional_bind_eq_ok.mp he
  have ⟨c, w, hc, he⟩ := optional_bind_eq_ok.mp he
  have ⟨_, _, hg, he⟩ := optional_bind_eq_ok.mp he
  obtain ⟨hlen, rfl⟩ := optional_guard_eq_ok.mp hg
  obtain ⟨rfl, rfl⟩ := optional_pure_eq_ok.mp he
  have hu := (keeps_coefficientsOf keeps_leads _ _ _ _).of_ok has hs
  exact ⟨ht, as, rfl, hlen, u, has, hu, hc⟩

theorem linear_sound {coefficients constant : Option ExprId} {array : ExprId} {xs : List ExprId}
    {dims : Dims} {ys as : List Int64} {c : Int64} (hk : m.kind array = .arrayLit xs dims)
    (hxs : ∀ x ∈ xs, m.Arithmetic .int x) (hs : ev.Reached m s)
    (he : Integers.linear ev bounds coefficients array constant s = .ok (some i) t)
    (hy : (Meaning.upTo m ρ n).ints m array = some ys)
    (hc : ∀ {s t cs}, ev.Reached m s →
      (coefficientsOf ev .int (1 : Int64) xs coefficients).run s = .ok (some cs) t → cs = as)
    (hz : ∀ {s t z}, ev.Reached m s →
      (constantOf ev .int (0 : Int64) constant).run s = .ok (some z) t → z = c)
    (hv : intLinear c (as.zip ys) = some v) : v ∈ i := by
  have ⟨o, u, hl, he⟩ := bind_eq_ok.mp he
  cases o with
  | none => simp at he
  | some l =>
    have ⟨hu, as', hterms, hlen, w, has, hw, hconst⟩ := h.linear_parts hk hs hl
    obtain rfl := hc hs has
    obtain hconst := hz hw hconst
    simp only [Meaning.ints, hk] at hy
    have hf : List.Forall₂ (fun x y => m.Arithmetic .int x ∧ (Meaning.upTo m ρ n).int x = some y)
        xs ys :=
      forall₂_and_mem (mapM_eq_some_iff.mp hy) hxs
    have hzip := hterms ▸ forall₂_zip hf as'
    exact h.terms_sound hzip hu he (hconst ▸ Interval.mem_ofInts_self _) hv

end Linear

section Rules

open Meaning (upTo)

-- Both operands, each bounded where it is evaluated.
theorem both_sound {l r : ExprId} {f : Interval → Interval → Option Interval} {x y : Int64}
    (hl : m.Arithmetic .int l) (hr : m.Arithmetic .int r) (hs : ev.Reached m s)
    (he : both (bounds .int) l r f s = .ok (some i) t) (hx : (upTo m ρ n).int l = some x)
    (hy : (upTo m ρ n).int r = some y) : ∃ a b, x ∈ a ∧ y ∈ b ∧ f a b = some i := by
  have ⟨a, b, u, ha, hb, hf⟩ := both_eq_ok he
  have hu : ev.Reached m u := (h.leads .int l).of_ok ha hs
  exact ⟨a, b, h.holding hl hs ha hx, h.holding hr hu hb hy, hf⟩

theorem domain_sound {d : DeclId} {bound : ExprId → EvalM (Option Interval)}
    (hd : m.IsVariable (m.followFlat d)) (hs : ev.Reached m s)
    (he : ofDecl bound (Integers.ofDomain ev) d s = .ok (some i) t)
    (hv : ρ (m.followFlat d) = some v) : v ∈ i := by
  have hh := h.holds hs
  have ⟨domain, hdom, _⟩ := hd.domain
  simp only [ofDecl, model_bind, hh.followFlat_eq, hh.domain_eq, hdom, Integers.ofDomain, bind_eq_ok,
    pure_eq_ok, Option.bind_eq_bind, Option.bind_eq_some_iff] at he
  obtain ⟨_, u, hS, ⟨S, rfl, lo, hlo, hi, hhi, hr⟩, rfl⟩ := he
  have hc := h.within _ v hv domain hdom s S u hs (attempt_eq_some.mp hS)
  cases hr
  exact Interval.mem_ofInts.mpr ⟨IntSet.min_le hc hlo, IntSet.le_max hc hhi⟩

omit h in
-- A sum is a linear expression in which each variable counts once.
theorem sum_eq_linear {β : Type} (xs : List β) (ys : List Int64) (h : xs.length = ys.length)
    (c : Int64) : ys.foldlM Checked.add c = intLinear c ((xs.map fun _ => 1).zip ys) := by
  induction ys generalizing xs c with
  | nil =>
    obtain rfl := List.length_eq_zero_iff.mp h
    rfl
  | cons y ys ih =>
    obtain ⟨x, xs, rfl⟩ := List.exists_cons_of_length_eq_add_one h
    have hy : Checked.mul 1 y = some y := Checked.mul_eq_some.mpr (by simp)
    simp only [List.map_cons, List.zip_cons_cons, intLinear, List.foldlM_cons, hy]
    refine bind_congr fun c => ?_
    exact ih xs (by simpa using h) c

theorem call_sound {name : String} {args : List ExprId} {fn : Option FuncId}
    (he : m.Arithmetic .int e) (hk : m.kind e = .call name args fn) (hs : ev.Reached m s)
    (hi : Integers.call ev bounds name args s = .ok (some i) t)
    (hv : (upTo m ρ n).intCall m name args = some v) : v ∈ i := by
  cases he with
  | int hk' | var hk' | un hk' | bin hk' | ite hk' => cases hk.symm.trans hk'
  | bool2int hk' =>
    cases hk.symm.trans hk'
    obtain ⟨b, _, hb⟩ := Option.map_eq_some_iff.mp hv
    obtain ⟨hi, _⟩ := pure_eq_ok.mp hi
    cases hi
    rw [← hb, Interval.mem_ofInts]
    cases b <;> decide
  | abs hk' ht hf ha =>
    cases hk.symm.trans hk'
    obtain ⟨x, hx, habs⟩ := Option.bind_eq_some_iff.mp hv
    obtain ⟨j, u, hj, hi⟩ := bind_eq_ok.mp hi
    obtain ⟨j', hj', hi⟩ := Option.map_eq_some_iff.mp (pure_eq_ok.mp hi).1
    have hmem := h.holding ha hs (hj' ▸ hj) hx
    exact hi ▸ Interval.mem_abs hmem (Checked.abs_eq_some.mp habs)
  | pair hk' ht hf hn ha hb =>
    cases hk.symm.trans hk'
    simp only [List.mem_cons, List.not_mem_nil, or_false] at hn
    rcases hn with rfl | rfl | rfl
    all_goals
      obtain ⟨x, hx, hv⟩ := Option.bind_eq_some_iff.mp hv
      obtain ⟨y, hy, hv⟩ := Option.bind_eq_some_iff.mp hv
      obtain ⟨a, b, ha, hb, hab⟩ := h.both_sound ha hb hs hi hx hy
    · exact Option.some.inj hab ▸ Option.some.inj hv ▸ Interval.mem_min ha hb
    · exact Option.some.inj hab ▸ Option.some.inj hv ▸ Interval.mem_max ha hb
    · exact Interval.mem_bin hab ha hb (overflowing_eq_ok.mpr hv)
  | sum hk' ht hf harr hd hx =>
    cases hk.symm.trans hk'
    obtain ⟨ys, hys, hv⟩ := Option.bind_eq_some_iff.mp hv
    have hlen : _ = ys.length :=
      (mapM_eq_some_iff.mp (by simpa only [Meaning.ints, harr] using hys)).length_eq
    rw [sum_eq_linear _ ys hlen] at hv
    refine h.linear_sound harr hx hs hi hys (fun hs he => ?_) (fun hs he => ?_) hv
    · exact (optional_pure_eq_ok.mp he).1.symm
    · exact (optional_pure_eq_ok.mp he).1.symm
  | linear hk' ht hf hw hdw harr hdx has hxs hc =>
    cases hk.symm.trans hk'
    obtain ⟨c, hc', hv⟩ := Option.bind_eq_some_iff.mp hv
    obtain ⟨as, has', hv⟩ := Option.bind_eq_some_iff.mp hv
    obtain ⟨ys, hys, hv⟩ := Option.bind_eq_some_iff.mp hv
    refine h.linear_sound harr hxs hs hi hys (fun hs he => ?_) (fun hs he => ?_) hv
    · exact (h.coefficients_eq hw has hs he has').symm
    · exact (h.int_unique hc hs (attempt_eq_some.mp he) hc').symm

theorem node_sound (he : m.Arithmetic .int e) (hs : ev.Reached m s)
    (hi : Integers.node ev bounds (m.kind e) s = .ok (some i) t)
    (hv : (upTo m ρ n).intStep m ρ e = some v) : v ∈ i := by
  have he' := he
  cases he with
  | int hk | ite hk =>
    simp only [Integers.node, hk] at hi
    cases hi
  | var hk ht hd =>
    simp only [Meaning.intStep, Integers.node, hk] at hv hi
    exact h.domain_sound hd hs hi hv
  | @un _ op a fn hk ht hf ha =>
    simp only [Integers.node, hk] at hi
    obtain ⟨j, u, hj, hi⟩ := bind_eq_ok.mp hi
    cases op with
    | not => cases hi
    | plus =>
      obtain ⟨rfl, _⟩ := pure_eq_ok.mp hi
      have hv : (upTo m ρ n).int a = some v := by
        cases fn <;> simp_all [Meaning.intStep]
      exact h.holding ha hs hj hv
    | minus =>
      obtain ⟨j', hj', hi⟩ := Option.map_eq_some_iff.mp (pure_eq_ok.mp hi).1
      obtain ⟨x, hx, hneg⟩ : ∃ x, (upTo m ρ n).int a = some x ∧ Checked.neg x = some v := by
        cases fn <;> simp_all [Meaning.intStep, Option.bind_eq_some_iff]
      have hmem := h.holding ha hs (hj' ▸ hj) hx
      exact hi ▸ Interval.mem_neg hmem (Checked.neg_eq_some.mp hneg)
  | @bin _ op l r fn hk ht hf hl hr =>
    simp only [Integers.node, hk] at hi
    obtain ⟨x, hx, y, hy, hop⟩ : ∃ x, (upTo m ρ n).int l = some x ∧ ∃ y,
        (upTo m ρ n).int r = some y ∧ intOp op x y = .ok v := by
      cases fn with
      | some f => simp [Meaning.intStep, hk] at hv
      | none =>
        simp only [Meaning.intStep, hk, Option.bind_eq_bind, Option.bind_eq_some_iff] at hv
        obtain ⟨x, hx, y, hy, hop⟩ := hv
        exact ⟨x, hx, y, hy, toOption_eq_some.mp hop⟩
    obtain ⟨a, b, ha, hb, hab⟩ := h.both_sound hl hr hs hi hx hy
    exact Interval.mem_bin hab ha hb hop
  | bool2int hk | abs hk | pair hk | sum hk | linear hk =>
    simp only [Meaning.intStep, Integers.node, hk] at hv hi
    split at hv
    · contradiction
    · exact h.call_sound he' hk hs hi hv

theorem rule_sound (he : m.Arithmetic .int e) (hs : ev.Reached m s)
    (hi : Integers.rule ev bounds e s = .ok (some i) t) (hv : (upTo m ρ n).int e = some v) :
    v ∈ i := by
  have hx := (h.holds hs).expr_eq he.kind_ne_anon
  simp only [Integers.rule, model_bind, hx] at hi
  cases n with
  | zero => contradiction
  | succ n =>
    split at hi
    · cases hi
    · split at hi
      · split at hi
        · cases hi
        · -- A fixed expression has its value whatever the variables are.
          obtain ⟨w, u, hw, hi⟩ := bind_eq_ok.mp hi
          obtain ⟨w', hw', hi⟩ := Option.map_eq_some_iff.mp (pure_eq_ok.mp hi).1
          obtain rfl := h.int_unique he hs (attempt_eq_some.mp (hw' ▸ hw)) hv
          exact hi ▸ Interval.mem_ofInts_self v
      · have he' := he
        cases he with
        | ite hk ht hc hb ho =>
          simp only [show (m.expr e).kind = _ from hk] at hi
          have hv : (upTo m ρ n).intStep m ρ e = some v := hv
          simp only [Meaning.intStep, hk, Option.bind_eq_bind, Option.bind_eq_some_iff] at hv
          obtain ⟨r, hr, hv⟩ := hv
          exact h.branches_sound (h.leads .int) h.holding ho hc hb hs hi hr hv
        | int hk | var hk | un hk | bin hk | bool2int hk | abs hk | pair hk | sum hk | linear hk =>
          simp only [show (m.expr e).kind = _ from hk] at hi
          split at hi
          · exact h.node_sound he' hs (hk ▸ hi) hv
          · cases hi

end Rules
end Setting

section Run

variable {m : Model} {ρ : DeclId → Option Int64} {limit fuel : Nat}

theorem setting_run (hw : Within (Eval.run limit fuel) m ρ) :
    ∀ n, Setting (Eval.run limit fuel) m ρ (run (Eval.run limit fuel) n)
  | 0 => {
      framing := framing_run limit fuel
      agrees := ⟨fuel, Meaning.agrees_run m ρ limit fuel⟩
      within := hw
      leads := keeps_run keeps_leads 0
      holding := nofun }
  | n + 1 => {
      framing := framing_run limit fuel
      agrees := ⟨fuel, Meaning.agrees_run m ρ limit fuel⟩
      within := hw
      leads := keeps_run keeps_leads (n + 1)
      holding := fun he hs hi _ _ hv => (setting_run hw n).rule_sound he hs hi hv }

end Run
end Bounds

end Parvar
