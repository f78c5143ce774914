import Parvar.Proofs.Eval.Simulation
import Parvar.Proofs.IntSet.Ends
import Parvar.Typing.Check

/-!
Calls and residuals are followed like the rest of an evaluation, and so a whole run is. With the
fuel that evaluation starts with, it comes to every value that there is.
-/

namespace Parvar

open Eval Machine Model

section Domains

variable {m : Model} {e x : ExprId} {ρ : Env} {fuel calls : Nat} {k : ValueKind}

namespace Reference

-- What has no value but that of a literal.
def isLeaf : ExprKind → Bool
  | .anon | .typeVar _ | .absent | .comp _ | .int _ | .float _ | .string _ => true
  | _ => false

theorem compound_leaf {R : Reference} {below : Option Reference} (hx : isLeaf (m.kind x)) :
    R.compound m ρ below k x = none := by
  unfold isLeaf at hx
  split at hx
  case h_8 => cases hx
  all_goals
    next hk =>
    simp only [compound, callee?, hk]
    cases k <;> rfl

theorem run_leaf (hx : isLeaf (m.kind x)) (hs : k.smaller? (m.ty x) = none)
    (hl : k.literal? x (m.kind x) = none) : run m fuel calls ρ k x = none := by
  cases fuel with
  | zero => rfl
  | succ fuel => simp [run, step, hs, hl, compound_leaf hx]

theorem run_literal {v w : k.Val} (hs : k.smaller? (m.ty x) = none)
    (hl : k.literal? x (m.kind x) = some w) (hv : run m fuel calls ρ k x = some v) : v = w := by
  cases fuel with
  | zero => cases hv
  | succ fuel =>
    simp only [run, step, hs, hl] at hv
    split at hv
    · cases hv
    · exact (Option.some.inj hv).symm

theorem run_ident {name : String} {d : Option DeclId} {v : k.Val} (hd : m.kind x = .ident name d)
    (hs : k.smaller? (m.ty x) = none) (hv : run m fuel calls ρ k x = some v) :
    ∃ (R : Reference) (c : DeclId), d = some c ∧ R.name m ρ k c = some v := by
  have hl : k.literal? x (.ident name d) = none := by cases k <;> rfl
  cases fuel with
  | zero => cases hv
  | succ fuel =>
    simp only [run, step, hs, hl, compound, callee?, hd] at hv
    split at hv
    · cases hv
    · cases d with
      | none => cases k <;> cases hv
      | some c => exact ⟨_, c, rfl, hv⟩

theorem run_int_literal {v a : Int64} (hk : m.kind x = .int a)
    (hv : run m fuel calls ρ .int x = some v) : v = a ∧ m.Stores x ⟨.int, a⟩ := by
  have hl : ValueKind.literal? .int x (m.kind x) = some a := by rw [hk]; rfl
  cases hb : (m.ty x).isBool
  · have hs : ValueKind.smaller? .int (m.ty x) = none := by simp [ValueKind.smaller?, hb]
    exact ⟨run_literal hs hl hv, hl, hs⟩
  · cases fuel with
    | zero => cases hv
    | succ fuel =>
      have hw : run m fuel calls ρ .bool x = none :=
        run_leaf (by rw [hk]; rfl) rfl (by rw [hk]; rfl)
      simp [run, step, ValueKind.smaller?, hb, hw] at hv
      cases hv

theorem run_int_float {a : Float} (hk : m.kind x = .float a) : run m fuel calls ρ .int x = none := by
  have hx : isLeaf (m.kind x) := by rw [hk]; rfl
  cases fuel with
  | zero => rfl
  | succ fuel =>
    cases hb : (m.ty x).isBool
    · exact run_leaf hx (by simp [ValueKind.smaller?, hb]) (by rw [hk]; rfl)
    · have hw : run m fuel calls ρ .bool x = none := run_leaf hx rfl (by rw [hk]; rfl)
      simp [run, step, ValueKind.smaller?, hb, hw]
      rfl

theorem run_intSet_range {v : IntSet} {l r : ExprId} (hk : m.kind x = .bin .range l r none)
    (hv : run m fuel calls ρ .intSet x = some v) :
    ∃ fuel a b, run m fuel calls ρ .int l = some a ∧ run m fuel calls ρ .int r = some b ∧
      v = .range a b := by
  cases fuel with
  | zero => cases hv
  | succ fuel =>
    simp only [run, step, ValueKind.smaller?, hk, ValueKind.literal?, compound, callee?] at hv
    obtain ⟨a, ha, hv⟩ := Option.bind_eq_some_iff.mp hv
    obtain ⟨b, hb, hv⟩ := Option.bind_eq_some_iff.mp hv
    exact ⟨fuel, a, b, ha, hb, (Option.some.inj hv).symm⟩

end Reference

-- Where a domain has only one value: a set of one integer, or a range between equal numbers.
theorem only_cases {p : DeclId} {o : Int64 ⊕ ExprId} (ho : only? m p = some o) :
    ∃ domain, m.domain p = some domain ∧
      ((∃ s w, m.kind domain = .intSet s ∧ s.card = 1 ∧ s.min? = some w ∧ o = .inl w) ∨
        ∃ l r fn, m.kind domain = .bin .range l r fn ∧ o = .inr l ∧
          ((∃ a, m.kind l = .int a ∧ m.kind r = .int a) ∨ ∃ a, m.kind l = .float a)) := by
  unfold only? at ho
  split at ho
  · cases ho
  · split at ho
    · next s hs =>
      have ⟨domain, hd, hk⟩ := Option.map_eq_some_iff.mp hs
      split at ho
      · next hc =>
        have ⟨w, hw, how⟩ := Option.map_eq_some_iff.mp ho
        exact ⟨domain, hd, .inl ⟨s, w, hk, hc, hw, how.symm⟩⟩
      · cases ho
    · next l r fn hs =>
      have ⟨domain, hd, hk⟩ := Option.map_eq_some_iff.mp hs
      refine ⟨domain, hd, .inr ⟨l, r, fn, hk, ?_⟩⟩
      split at ho
      · next a b hl hr =>
        split at ho
        · next hab =>
          subst hab
          exact ⟨(Option.some.inj ho).symm, .inl ⟨a, hl, hr⟩⟩
        · cases ho
      · next a b hl hr =>
        split at ho
        · exact ⟨(Option.some.inj ho).symm, .inr ⟨a, hl⟩⟩
        · cases ho
      · cases ho
    · cases ho

theorem Reference.inside_int {R : Reference} {p : DeclId} {w : Value} {b : Bool} {domain : ExprId}
    (hint : (m.decl p).ty.isInt) (hpar : (m.decl p).ty.isPar) (hd : m.domain p = some domain)
    (hvar : (m.kind domain).isTypeVar = false) (h : R.inside m p w = some b) :
    ∃ s i, R.intSet [] domain = some s ∧ w = ⟨.int, i⟩ ∧ s.contains i = b := by
  simp only [Ty.isInt, Ty.isScalar, Bool.and_eq_true, decide_eq_true_eq, Bool.not_eq_true'] at hint
  have hset : (m.decl p).ty.isSetTy = false := by simp [Ty.isSetTy, hint]
  simp only [inside, hd, hpar, hvar, hint.2, hset, Bool.not_true, Bool.or_self, Bool.false_eq_true,
    if_false] at h
  obtain ⟨s, hs, h⟩ := Option.bind_eq_some_iff.mp h
  obtain ⟨i, hi, h⟩ := Option.bind_eq_some_iff.mp h
  exact ⟨s, i, hs, Value.eq_of_read hi, Option.some.inj h⟩

-- An argument that passed its check is the only value of the domain, if there is only one.
theorem Model.Evaluable.fits {f : FuncId} {args : List ExprId} {p : DeclId} {w : Value}
    (hm : m.Evaluable e) (hx : m.Touches e x) (hf : m.callee? x = some (f, args))
    (hp : p ∈ (m.func f).params) (h : (Reference.run m fuel calls).inside m p w = some true) :
    m.Fits p w := by
  unfold Fits
  cases ho : only? m p with
  | none => trivial
  | some o =>
    have ⟨hint, hpar, hrange⟩ := hm.single hx hf hp (Option.isSome_iff_exists.mpr ⟨o, ho⟩)
    have ⟨domain, hd, hdomain⟩ := only_cases ho
    have hvar : (m.kind domain).isTypeVar = false := by
      obtain ⟨_, _, hk, _⟩ | ⟨_, _, _, hk, _⟩ := hdomain
      all_goals
        rw [hk]
        rfl
    obtain ⟨s, i, hs, rfl, hi⟩ := Reference.inside_int hint hpar hd hvar h
    obtain ⟨t, c, hk, hcard, hmin, rfl⟩ | ⟨l, r, fn, hk, rfl, hends⟩ := hdomain
    · obtain rfl := Reference.run_literal rfl (by rw [hk]; rfl) hs
      rw [IntSet.eq_min_of_card hcard hi hmin]
    · obtain rfl := hrange hd hk
      obtain ⟨n, a, b, ha, hb, rfl⟩ := Reference.run_intSet_range hk hs
      obtain ⟨c, hl, hr⟩ | ⟨c, hl⟩ := hends
      · have ⟨hac, hst⟩ := Reference.run_int_literal hl ha
        have ⟨hbc, _⟩ := Reference.run_int_literal hr hb
        subst hac hbc
        obtain rfl := IntSet.eq_of_contains_range hi
        exact hst
      · simp [Reference.run_int_float hl] at ha

end Domains

section Types

variable {ty : Ty} {k : ValueKind} (h : ty.kind? = some k)

include h

theorem Ty.literalKind_of_par (hp : ty.isPar) : literalKind? ty = some k := by
  have hk := (Option.filter_eq_some_iff.mp h).1
  obtain ⟨inst, base, isSet, isOpt, cv, dim, hcv⟩ := ty
  cases inst
  case par => exact hk
  case var => simp [Ty.isPar] at hp

theorem Ty.smaller_of_kind : k.smaller? ty = none := by
  have hk := (Option.filter_eq_some_iff.mp h).1
  have hint : ty.isInt → k = .int := by
    intro hi
    have hi : (ty.withInst .par).isInt := hi
    exact (literalKind_int hi).elim (fun hn => by simp [hn] at hk)
      fun hs => Option.some.inj (hk.symm.trans hs)
  have hbool : ty.isBool → k = .bool := by
    intro hb
    have hb : (ty.withInst .par).isBool := hb
    exact (literalKind_bool hb).elim (fun hn => by simp [hn] at hk)
      fun hs => Option.some.inj (hk.symm.trans hs)
  cases k
  case int => simpa [ValueKind.smaller?] using hbool
  case float => simp_all [ValueKind.smaller?]
  all_goals rfl

end Types

namespace Simulates

variable {m : Model} {e x : ExprId} {limit depth : Nat} {ev : Eval} {R B : Reference} {ρ : Env}
  {s : Machine} {k : ValueKind}

section Arguments

variable (h : Simulates m e depth ev R)

include h

-- What is outside of a let or a function is evaluated from inside.
theorem outer {scope : Env} {v : k.Val} (hp : ρ.Passing m) (hs : s.Mirrors m ρ depth) (hsub : scope ⊆ ρ)
    (hx : m.Situated e scope x) (hv : R scope k x = some v) :
    ∃ t, ev.value k x s = .ok v t ∧ t.Mirrors m ρ depth ∧ s.model.Grows t.model := by
  have ⟨t, ht, hmt⟩ := h.value hx (hs.mono hsub) hv
  have hf := (h.framing [] _ x).of_ok ht
  exact ⟨t, ht, hs.framed hp hf hmt.tops, hf.grows⟩

variable (hp : ρ.Passing m) (hs : s.Mirrors m ρ depth) {a : ExprId} {w : Value} {b : Bool}
  (ha : s.model.Stores a w)

include hp hs ha

omit h hp hs ha in
theorem allOf_singleton {test : ExprId → EvalM Bool} {t : Machine} (ht : test a s = .ok b t) :
    allOf [a] test s = .ok b t := by
  simp only [allOf, List.foldlM_cons, List.foldlM_nil, bind_eq_ok, pure_eq_ok]
  exact ⟨b, t, ⟨b, t, ht, Bool.and_true b, rfl⟩, rfl, rfl⟩

theorem insideInts {ty : Ty} {domain : ExprId} (hd : m.Situated e [] domain) (hv : (do
      let s ← R.intSet [] domain
      if ty.isSetTy then return (← w.read .intSet).subset s
      return s.contains (← w.read .int)) = some b) :
    ∃ t, Eval.insideInts ev ty domain [a] s = .ok b t ∧ t.Mirrors m ρ depth := by
  obtain ⟨r, hr, hv⟩ := Option.bind_eq_some_iff.mp hv
  obtain ⟨t, ht, hmt, hg⟩ := h.outer hp hs (List.nil_subset ρ) hd hr
  refine ⟨t, bind_eq_ok.mpr ⟨r, t, ht, allOf_singleton ?_⟩, hmt⟩
  split at hv
  all_goals
    next hset =>
    obtain ⟨c, hc, hv⟩ := Option.bind_eq_some_iff.mp hv
    obtain rfl := Value.eq_of_read hc
    simp only [hset, Bool.false_eq_true, if_true, if_false, bind_eq_ok, pure_eq_ok]
    exact ⟨c, t, h.literal (ha.mono hg), Option.some.inj hv, rfl⟩

theorem insideFloats {l r : ExprId} (hl : m.Situated e [] l) (hr : m.Situated e [] r) (hv : (do
      let lo ← R.float [] l
      let hi ← R.float [] r
      let x : Float ← w.read .float
      return lo ≤ x && x ≤ hi) = some b) :
    ∃ t, Eval.insideFloats ev l r [a] s = .ok b t ∧ t.Mirrors m ρ depth := by
  have ⟨lo, hlo, hv⟩ := Option.bind_eq_some_iff.mp hv
  have ⟨hi, hhi, hv⟩ := Option.bind_eq_some_iff.mp hv
  have ⟨c, hc, hv⟩ := Option.bind_eq_some_iff.mp hv
  obtain rfl := Value.eq_of_read hc
  have ⟨t, ht, hmt, hg⟩ := h.outer hp hs (List.nil_subset ρ) hl hlo
  have ⟨u, hu, hmu, hg'⟩ := h.outer hp hmt (List.nil_subset ρ) hr hhi
  refine ⟨u, bind_eq_ok.mpr ⟨lo, t, ht, bind_eq_ok.mpr ⟨hi, u, hu, allOf_singleton ?_⟩⟩, hmu⟩
  simp only [bind_eq_ok, pure_eq_ok]
  exact ⟨c, u, h.literal (ha.mono (hg.trans hg')), Option.some.inj hv, rfl⟩

omit h hp hs ha in
-- The domains of other parameters are not looked at.
theorem inside_other {ty : Ty} {domain : ExprId} {values : List ExprId} (hint : ty.base ≠ .int)
    (hfloat : ∀ l r fn, ty.base = .float → s.model.kind domain ≠ .bin .range l r fn) :
    Eval.inside ev ty domain values s = .ok true s := by
  rw [Eval.inside, model_bind]
  generalize ty.base = base, s.model.kind domain = kind at hint hfloat
  split
  · exact (hint rfl).elim
  · exact (hfloat _ _ _ rfl rfl).elim
  · rfl

omit ha

-- A parameter is checked after it was bound.
theorem checked {p : DeclId} (span : Span) (hm : m.Placed e) (hw : (p, some w) ∈ ρ) (hne : w.kind ≠ .array)
    (hd : ∀ domain, m.domain p = some domain → m.Situated e [] domain)
    (hends : ∀ domain l r fn, m.domain p = some domain → m.kind domain = .bin .range l r fn →
      ∀ y ∈ [l, r], m.Situated e [] y)
    (hv : R.inside m p w = some true) :
    ∃ t, checkParam ev span p s = .ok () t ∧ t.Mirrors m ρ depth := by
  have ⟨a, ha, hst⟩ := hs.binds _ hw
  have hdim : ¬0 < (m.decl p).ty.dim := by rw [(hp _ hw).2 rfl]; exact Int.lt_irrefl 0
  have habs : (s.model.kind a).isAbsent = false := by
    rw [hst.kind_eq hne]
    obtain ⟨k, w⟩ := w
    cases k <;> rfl
  simp only [checkParam, model_bind, hs.above.domain_eq, ha, hs.above.ty_eq]
  unfold Reference.inside at hv
  dsimp only at hv
  cases hdomain : m.domain p with
  | none => exact ⟨s, rfl, hs⟩
  | some domain =>
    rw [hdomain] at hv
    have hkind := hs.above.grows.kind_eq ((hd domain hdomain).present hm)
    have hd := hd domain hdomain
    dsimp only at hv ⊢
    rw [hkind, habs]
    split at hv
    · next hc =>
      have hc : ((m.decl p).ty.isPar && !(m.kind domain).isTypeVar && !false) = false := by
        revert hc
        cases (m.decl p).ty.isPar <;> cases (m.kind domain).isTypeVar <;> simp
      rw [hc]
      exact ⟨s, rfl, hs⟩
    · next hc =>
      have hc : ((m.decl p).ty.isPar && !(m.kind domain).isTypeVar && !false) = true := by
        revert hc
        cases (m.decl p).ty.isPar <;> cases (m.kind domain).isTypeVar <;> simp
      have ⟨t, ht, hmt⟩ : ∃ t, Eval.inside ev (m.decl p).ty domain [a] s = .ok true t ∧
          t.Mirrors m ρ depth := by
        split at hv
        · next hb =>
          simp only [Eval.inside, model_bind, hb]
          exact h.insideInts hp hs hst hd hv
        · next l r fn hb hk =>
          have hends := hends domain l r fn hdomain hk
          simp only [Eval.inside, model_bind, hkind, hb, hk]
          exact h.insideFloats hp hs hst (hends l (by simp)) (hends r (by simp)) hv
        · next hint hfloat =>
          exact ⟨s, inside_other hint fun l r fn hb => by rw [hkind]; exact hfloat l r fn hb, hs⟩
      refine ⟨t, ?_, hmt⟩
      simp only [hc, domainValues, hdim, if_true, if_false, bind_eq_ok, pure_eq_ok]
      exact ⟨[a], s, ⟨rfl, rfl⟩, true, t, ht, rfl⟩

end Arguments

section Calls

variable {f : FuncId} {args : List ExprId}

-- What a call with a value is made of.
theorem callParts {v : k.Val} (hv : R.call m ρ B f args k = some v) :
    ∃ body vs, (m.func f).body = some body ∧ (m.ty body).dim ≤ 0 ∧
      (m.func f).params.length = args.length ∧ (∀ p ∈ (m.func f).params, (m.decl p).ty.dim = 0) ∧
      args.mapM (R.operand m ρ) = some vs ∧
      (∀ b ∈ (m.func f).params.zip vs, B.inside m b.1 b.2 = some true) ∧
      B ((m.func f).params.zip (vs.map some)) k body = some v := by
  have ⟨body, hb, hv⟩ := Option.bind_eq_some_iff.mp hv
  have ⟨_, hd, hv⟩ := Option.bind_eq_some_iff.mp hv
  have ⟨vs, ha, hv⟩ := Option.bind_eq_some_iff.mp hv
  have ⟨_, hl, ha⟩ := Option.bind_eq_some_iff.mp ha
  have ⟨ws, hws, ha⟩ := Option.bind_eq_some_iff.mp ha
  have ⟨fits, hfits, ha⟩ := Option.bind_eq_some_iff.mp ha
  have ⟨_, hall, ha⟩ := Option.bind_eq_some_iff.mp ha
  cases ha
  have ⟨hl, hdims⟩ := (Option.guard_eq_some' _).mp hl
  refine ⟨body, vs, hb, (Option.guard_eq_some' _).mp hd, hl, hdims, hws, fun b hb => ?_, hv⟩
  have ⟨fit, hfit, hin⟩ := forall₂_exists (mapM_eq_some_iff.mp hfits) b hb
  exact ((Option.guard_eq_some' _).mp hall fit hfit) ▸ hin

theorem kind_ne_array {v : Value} (hv : R.operand m ρ x = some v) : v.kind ≠ .array := by
  have ⟨k, hk, hv⟩ := Option.bind_eq_some_iff.mp hv
  have ⟨_, _, hv⟩ := Option.bind_eq_some_iff.mp hv
  cases hv
  exact Ty.kind_ne_array hk

-- The arguments are stored one after the other.
theorem storeArguments (h : Simulates m e depth ev R) (hs : s.Mirrors m ρ depth) {vs : List Value}
    (ha : ∀ a ∈ args, m.Situated e ρ a) (hv : args.mapM (R.operand m ρ) = some vs) :
    ∃ values t, args.mapM ev.residual s = .ok values t ∧ t.Mirrors m ρ depth ∧
      List.Forall₂ t.model.Stores values vs :=
  exists_mapM (fun a hm _ _ hs hv => h.operand (ha a hm) hs hv) (fun a _ => h.framing [] .residual a)
    (fun hf hst => hst.mono hf.grows) hs hv

-- Parameters hold their arguments after they were bound.
theorem bindArguments (hm : m.Placed e) (hx : m.Situated e ρ x) (hf : m.callee? x = some (f, args))
    (hs : s.Mirrors m ρ depth) {values : List ExprId} {vs : List Value}
    (hl : (m.func f).params.length = values.length) (hst : List.Forall₂ s.model.Stores values vs) :
    (bindAll s (((m.func f).params.zip values).map fun b => (b.1, some b.2))).Mirrors m
      ((m.func f).params.zip (vs.map some)) depth := by
  have hfst : (((m.func f).params.zip values).map fun b => (b.1, some b.2)).map (·.1) =
      (m.func f).params := by
    rw [List.map_map]
    exact List.map_fst_zip (Nat.le_of_eq hl)
  refine hs.bindAll ?_ (fun b hb => ?_) fun b hb => .inr ?_
  · rw [hfst]
    exact hx.nodup_params hm hf
  · have hp : b.1 ∈ (m.func f).params := hfst ▸ List.mem_map_of_mem hb
    exact fun ht => hm.not_isParam ht (hx.isParam hm hf hp)
  · rw [List.zip_map_right] at hb
    obtain ⟨c, hc, rfl⟩ := List.mem_map.mp hb
    have hz := forall₂_zip hst (m.func f).params
    have ⟨a, ha, hac, hst⟩ := forall₂_exists (List.Forall₂.flip hz) c hc
    refine ⟨some a.2, List.mem_map.mpr ⟨a, ha, ?_⟩, ?_, a.2, rfl, hst⟩
    · simp [hac]
    · have hroot := mem_roots_of_isParam (e := e) (hx.isParam hm hf (List.of_mem_zip hc).1)
      exact hm.place.present (.root hroot)

theorem checkedAll (h : Simulates m e depth ev R) (hm : m.Placed e) (hp : ρ.Passing m)
    (hs : s.Mirrors m ρ depth) (span : Span) {ps : List DeclId}
    (hps : ∀ p ∈ ps, ∃ w, (p, some w) ∈ ρ ∧ w.kind ≠ .array ∧ R.inside m p w = some true)
    (hd : ∀ p ∈ ps, ∀ domain, m.domain p = some domain → m.Situated e [] domain)
    (hends : ∀ p ∈ ps, ∀ domain l r fn, m.domain p = some domain →
      m.kind domain = .bin .range l r fn → ∀ y ∈ [l, r], m.Situated e [] y) :
    ∃ t, ps.forM (checkParam ev span) s = .ok () t ∧ t.Mirrors m ρ depth := by
  induction ps generalizing s with
  | nil => exact ⟨s, rfl, hs⟩
  | cons p ps ih =>
    have ⟨⟨w, hw, hne, hin⟩, hps⟩ := List.forall_mem_cons.mp hps
    have ⟨hd₁, hd⟩ := List.forall_mem_cons.mp hd
    have ⟨he₁, hends⟩ := List.forall_mem_cons.mp hends
    have ⟨t, ht, hmt⟩ := h.checked hp hs span hm hw hne hd₁ he₁ hin
    have ⟨u, hu, hmu⟩ := ih hmt hps hd hends
    exact ⟨u, bind_eq_ok.mpr ⟨(), t, ht, hu⟩, hmu⟩

-- A call is followed if its body is, one call deeper.
theorem callValue (h : Simulates m e depth ev R) (hB : Simulates m e (depth + 1) ev B)
    {fuel calls : Nat} (hrun : B = Reference.run m fuel calls) (hlimit : depth < limit)
    (hm : m.Evaluable e) (hx : m.Situated e ρ x) (hf : m.callee? x = some (f, args))
    (hs : s.Mirrors m ρ depth) (span : Span) {v : k.Val} (hv : R.call m ρ B f args k = some v) :
    ∃ t, call ev limit f args span (ev.value k) s = .ok v t ∧ ∀ c, m.isToplevel c → t.Computed m c := by
  have ⟨body, vs, hbody, hdim, hlen, hdims, hvs, hin, hv⟩ := callParts hv
  have ⟨values, u, hu, hmu, hst⟩ := h.storeArguments hs (fun a ha => hx.asks hm.toPlaced
    (.part (Reference.mem_args hf ha).1 (Reference.mem_args hf ha).2)) hvs
  have hkinds : ∀ w ∈ vs, w.kind ≠ .array := by
    intro w hw
    have ⟨a, _, ha⟩ := forall₂_exists (mapM_eq_some_iff.mp hvs).flip w hw
    exact kind_ne_array ha
  have hinner := hx.body hm.toPlaced hf hbody hdims fun b hb =>
    ⟨hkinds b.2 (List.of_mem_zip hb).2, hm.fits hx.touches hf (List.of_mem_zip hb).1 (hrun ▸ hin b hb)⟩
  have hvalues : (m.func f).params.length = values.length :=
    (hlen.trans (mapM_eq_some_iff.mp hvs).length_eq).trans hst.length_eq.symm
  have hbound := (bindArguments hm.toPlaced hx hf hmu hvalues hst).deeper
  have ⟨saved, hsaved, hopens⟩ :=
    mapM_bind (((m.func f).params.zip values).map fun b => (b.1, some b.2)) u
  rw [List.mapM_map] at hsaved
  have hchecks : ∀ p ∈ (m.func f).params, ∃ w, (p, some w) ∈ (m.func f).params.zip (vs.map some) ∧
      w.kind ≠ .array ∧ B.inside m p w = some true := by
    intro p hp
    rw [← List.map_fst_zip (Nat.le_of_eq (hvalues.trans hst.length_eq))] at hp
    obtain ⟨b, hb, rfl⟩ := List.mem_map.mp hp
    refine ⟨b.2, ?_, hkinds b.2 (List.of_mem_zip hb).2, hin b hb⟩
    rw [List.zip_map_right]
    exact List.mem_map.mpr ⟨b, hb, rfl⟩
  have ⟨t, ht, hmt⟩ := hB.checkedAll hm.toPlaced (hm.passing hinner) hbound span hchecks
    (fun p hp domain hd => hx.enters hm.toPlaced (.domain hf hp hd))
    (fun p hp domain l r fn hd hk y hy => hx.enters hm.toPlaced (.ends hf hp hd hk hy))
  have ⟨r, hr, hmr⟩ := hB.value hinner hmt hv
  have hdetach : detach ev body t = .ok body t := by
    simp only [detach, model_bind, hmt.above.grows.ty_eq (hinner.present hm.toPlaced)]
    rw [if_neg (Int.not_lt.mpr hdim)]
    rfl
  refine ⟨restoreAll saved { r with depth := r.depth - 1 }, call_eq_ok.mpr ?_, fun c hc => ?_⟩
  · rw [hs.above.func_eq, hs.depth]
    refine ⟨body, hbody, hlen, hlimit, values, u, saved, _, hu, hsaved, ?_⟩
    refine restoring_eq_ok.mpr ⟨_, deeper_eq_ok.mpr ⟨r, ?_, rfl⟩, rfl⟩
    exact bind_eq_ok.mpr ⟨(), t, ht, bind_eq_ok.mpr ⟨body, t, hdetach, hr⟩⟩
  · refine (hmr.tops c hc).congr (decl_restoreAll_of_notMem hopens fun hcs => ?_) (grows_restoreAll _ _)
    rw [List.map_map] at hcs
    obtain ⟨b, hb, rfl⟩ := List.mem_map.mp hcs
    exact hm.not_isParam hc (hx.isParam hm.toPlaced hf (List.of_mem_zip hb).1)

end Calls

section Steps

variable (h : Simulates m e depth ev R) {fuel calls : Nat} (hrun : R = Reference.run m fuel calls)
  {below : Option Reference}
  (hbelow : ∀ B ∈ below, depth < limit ∧ Simulates m e (depth + 1) ev B ∧
    ∃ calls, B = Reference.run m fuel calls)
  (hm : m.Evaluable e) (hx : m.Situated e ρ x) (hs : s.Mirrors m ρ depth)

-- A call by name or by an operator.
theorem compound_callee {f : FuncId} {args : List ExprId} {t : Machine} {v : k.Val}
    (hs : s.Mirrors m ρ depth) (hf : m.callee? x = some (f, args))
    (hc : call ev limit f args (m.expr x).span (ev.value k) s = .ok v t) :
    compound ev limit k (m.expr x) s = .ok v t := by
  unfold callee? at hf
  split at hf
  · next name as fn hk =>
    have ⟨g, hg, hfa⟩ := Option.map_eq_some_iff.mp hf
    cases hfa
    have hk : (m.expr x).kind = .call name args fn := hk
    simp only [compound, hk, model_bind, within_eq_ok, hs.above.withBody_eq, hg]
    exact hc
  · next op l r g hk =>
    cases hf
    have hk : (m.expr x).kind = .bin op l r (some f) := hk
    simp only [compound, hk, within_eq_ok]
    exact hc
  · next op a g hk =>
    cases hf
    have hk : (m.expr x).kind = .un op a (some f) := hk
    simp only [compound, hk, within_eq_ok]
    exact hc
  · cases hf

include h hrun hbelow hm hx hs

theorem compoundValue {v : k.Val} (hv : R.compound m ρ below k x = some v) :
    ∃ t, compound ev limit k (m.expr x) s = .ok v t ∧ t.Mirrors m ρ depth := by
  have mirrored : ∀ {t}, compound ev limit k (m.expr x) s = .ok v t →
      (∀ c, m.isToplevel c → t.Computed m c) →
      ∃ t, compound ev limit k (m.expr x) s = .ok v t ∧ t.Mirrors m ρ depth := fun ht htops =>
    ⟨_, ht, hs.framed (hm.passing hx) ((h.framing.compound h.valuing limit k _).of_ok ht) htops⟩
  have hp : (∀ l, m.kind x ≠ .letIn l) → ∀ y, .expr y ∈ (m.kind x).parts Generator.parts →
      m.Situated e ρ y := fun hl y hy => hx.asks hm.toPlaced (.part hy hl)
  unfold Reference.compound at hv
  split at hv
  · next f args hf =>
    obtain ⟨B, hB, hv⟩ := Option.bind_eq_some_iff.mp hv
    obtain ⟨hlimit, hsim, n, hn⟩ := hbelow B hB
    obtain ⟨t, ht, htops⟩ := h.callValue hsim hn hlimit hm hx hf hs (m.expr x).span hv
    exact mirrored (compound_callee hs hf ht) htops
  · next hc =>
    split at hv
    · next name d hk =>
      obtain ⟨t, ht, htops⟩ := h.nameValue hm (m.expr x).span hx hs hrun hk hv
      refine mirrored (t := t) ?_ htops
      have hk : (m.expr x).kind = _ := hk
      simp only [compound, hk, within_eq_ok]
      exact ht
    · next branches otherwise hk =>
      have hp := hp (by simp [hk])
      simp only [hk, ExprKind.parts, List.mem_append, List.mem_flatMap] at hp
      obtain ⟨r, hr, hv⟩ := Option.bind_eq_some_iff.mp hv
      obtain ⟨t, ht, hmt⟩ := h.select hs (fun b hb => hp b.1 (.inl ⟨b, hb, by simp⟩)) hr
      have hra : m.Situated e ρ r := by
        obtain rfl | ⟨c, hc⟩ := Reference.mem_of_choose hr
        · exact hp r (by simp)
        · exact hp r (.inl ⟨_, hc, by simp⟩)
      obtain ⟨u, hu, hmu⟩ := h.value hra hmt hv
      exact ⟨u, (compound_ite hk).mpr ⟨r, t, ht, hu⟩, hmu⟩
    · next l hk =>
      obtain ⟨t, ht, htops⟩ := h.letValue hm hx hs hk hv
      refine mirrored (t := t) ?_ htops
      have hk : (m.expr x).kind = _ := hk
      simp only [compound, hk, within_eq_ok]
      exact ht
    · next hl => exact h.nodeValue (hp fun l he => hl l he) hs hm.toPlaced hc hv

-- A step of the machine follows a step of the reference.
theorem stepValue {v : k.Val} (hv : Reference.step m R below ρ k x = some v) :
    ∃ t, valueStep ev limit k x s = .ok v t ∧ t.Mirrors m ρ depth := by
  have hexpr := hs.above.grows.expr_eq (hx.present hm.toPlaced)
  unfold Reference.step at hv
  simp only [valueStep, model_bind, hexpr, fromSmaller_eq]
  split at hv
  · cases hv
  · split at hv
    · next k' widen hk =>
      obtain ⟨w, hw, hv⟩ := Option.map_eq_some_iff.mp hv
      obtain ⟨t, ht, hmt⟩ := h.value hx hs hw
      refine ⟨t, ?_, hmt⟩
      simp only [show (m.expr x).ty = m.ty x from rfl, hk, Option.map_some, bind_eq_ok, pure_eq_ok]
      exact ⟨w, t, ht, hv, rfl⟩
    · next hk =>
      simp only [show (m.expr x).ty = m.ty x from rfl, hk, Option.map_none,
        show (m.expr x).kind = m.kind x from rfl]
      split at hv
      · next w hw =>
        rw [hw]
        exact ⟨s, pure_eq_ok.mpr ⟨Option.some.inj hv, rfl⟩, hs⟩
      · next hw =>
        rw [hw]
        exact h.compoundValue hrun hbelow hm hx hs hv

end Steps

section Residuals

-- The only value of a domain is the same as before.
theorem only_eq {d : DeclId} (hm : m.Placed e) (hd : m.Reached (m.rootsWith e) (.decl d))
    (ha : s.Above m) : only? s.model d = only? m d := by
  unfold only?
  rw [ha.ty_eq, ha.domain_eq]
  cases hdom : m.domain d with
  | none => rfl
  | some domain =>
    have hp := part_domain hd hdom
    have hr := hp.reached.part hp.mem
    simp only [Option.map_some, ha.grows.kind_eq (hm.place.present hr)]
    cases hk : m.kind domain
    case bin op l r fn =>
      have hl := part_expr (x := l) hr (by simp [hk, ExprKind.parts])
      have hr := part_expr (x := r) hr (by simp [hk, ExprKind.parts])
      cases op
      case range =>
        simp only [ha.grows.kind_eq (hm.place.present (hl.reached.part hl.mem)),
          ha.grows.kind_eq (hm.place.present (hr.reached.part hr.mem))]
      all_goals rfl
    all_goals rfl

variable (hm : m.Evaluable e) (hx : m.Situated e ρ x) (hs : s.Mirrors m ρ depth) {v : k.Val}
  (hk : (m.ty x).kind? = some k)
  (hval : ∃ t, ev.value k x s = .ok v t ∧ t.Mirrors m ρ depth)

include hm hx hk hval

-- A fixed expression is replaced by a literal.
theorem storedValue : ∃ a t, residualByType ev limit x (m.expr x) s = .ok a t ∧ t.Mirrors m ρ depth ∧
    t.model.Stores a ⟨k, v⟩ := by
  have ⟨t, ht, hmt⟩ := hval
  have ⟨a, u, hu, hmu, hst⟩ := hmt.store (v := v) (hm.passing hx) (Ty.kind_ne_array hk)
  have hlit : literalKind? (m.expr x).ty = some k := Ty.literalKind_of_par hk (hm.fixed hx.touches)
  refine ⟨a, u, ?_, hmu, hst⟩
  rw [residualByType_eq (Ty.dim_eq_of_kind hk), hlit]
  exact bind_eq_ok.mpr ⟨v, t, ht, hu⟩


omit hk hval in
-- The declaration that a name with a value stands for has an initializer, and it is a parameter only
-- if the name is an argument.
theorem name_cases {d : DeclId} (hs : s.Mirrors m ρ depth) (hv : R.name m ρ k d = some v) :
    m.Reached (m.rootsWith e) (.decl (s.model.followFlat d)) ∧
      (s.model.decl (s.model.followFlat d)).init.isSome ∧
      (m.IsParam (s.model.followFlat d) → (s.model.followFlat d, some ⟨k, v⟩) ∈ ρ) := by
  unfold Reference.name at hv
  split at hv
  · next w scope hf =>
    have ⟨hmem, _⟩ := Env.find_mem hf
    obtain rfl := Value.eq_of_read hv
    have ⟨a, ha, _⟩ := hs.binds _ hmem
    rw [hs.followFlat_local hmem]
    exact ⟨hx.reached_local hmem, Option.isSome_iff_exists.mpr ⟨a, ha⟩, fun _ => hmem⟩
  · next scope hf =>
    have ⟨hmem, _⟩ := Env.find_mem hf
    have ⟨hkind, i, hi, _⟩ := Reference.declared_eq_some.mp hv
    have hinit := hs.binds _ hmem i hi (Ty.dim_eq_of_kind hkind)
    rw [hs.followFlat_local hmem]
    refine ⟨hx.reached_local hmem, Option.isSome_iff_exists.mpr ⟨i, hinit⟩, fun hp => ?_⟩
    obtain ⟨_, _, _, hsome, _⟩ | ⟨hroot, _⟩ := hx.local_cases hm.toPlaced hmem
    · cases hsome
    · exact (hroot (mem_roots_of_isParam hp)).elim
  · split at hv
    · next hd =>
      have htop := isToplevel_follow hd
      have ⟨_, i, hi, _⟩ := Reference.declared_eq_some.mp hv
      rw [hs.followFlat_top hd]
      refine ⟨.root (mem_roots_of_isToplevel htop), ?_, fun hp => (hm.not_isParam htop hp).elim⟩
      obtain ⟨_, hinit | ⟨_, _, _, a, _, _, _, _, _, ha, _⟩⟩ := hs.tops _ htop
      · exact Option.isSome_iff_exists.mpr ⟨i, hinit.trans hi⟩
      · exact Option.isSome_iff_exists.mpr ⟨a, ha⟩
    · cases hv

theorem identResidual {name : String} {d : DeclId} (hs : s.Mirrors m ρ depth)
    (hd : m.kind x = .ident name (some d)) (hv : R.name m ρ k d = some v) :
    ∃ a t, residualStep ev limit x s = .ok a t ∧ t.Mirrors m ρ depth ∧
      t.model.Stores a ⟨k, v⟩ := by
  have hexpr := hs.above.grows.expr_eq (hx.present hm.toPlaced)
  obtain ⟨hreach, hinit, hparam⟩ := name_cases hm hx hs hv
  have hkind : (m.expr x).kind = .ident name (some d) := hd
  have honly := only_eq hm.toPlaced hreach hs.above
  have hfits : ∀ {o}, only? m (s.model.followFlat d) = some o → m.Fits (s.model.followFlat d) ⟨k, v⟩ := by
    intro o ho
    have hmem := hparam (hm.bare (Option.isSome_iff_exists.mpr ⟨o, ho⟩))
    obtain ⟨_, _, w, hw, _, hf⟩ | ⟨_, hn⟩ := hx.local_cases hm.toPlaced hmem
    · cases hw
      exact hf
    · cases hn
  simp only [residualStep, model_bind, hexpr, hkind, Eval.declared, onlyValue?, bind_assoc, pure_bind, honly]
  unfold Fits at hfits
  cases ho : only? m (s.model.followFlat d) with
  | none =>
    obtain ⟨i, hi⟩ := Option.isSome_iff_exists.mp hinit
    simp only [pure_bind, model_bind, hi]
    have hlit : literalKind? (m.expr x).ty = some k := Ty.literalKind_of_par hk (hm.fixed hx.touches)
    rw [hlit]
    exact storedValue hm hx hk hval
  | some o =>
    have hf := hfits ho
    rw [ho] at hf
    cases o with
    | inl c =>
      obtain ⟨a, t, hb, hmt, hst⟩ := hs.store (k := .int) (v := c) (hm.passing hx) (by decide)
      rw [show (⟨k, v⟩ : Value) = ⟨.int, c⟩ from hf]
      exact ⟨a, t, bind_eq_ok.mpr ⟨some a, t, bind_eq_ok.mpr ⟨a, t, hb, rfl⟩, rfl⟩, hmt, hst⟩
    | inr l =>
      exact ⟨l, s, rfl, hs, hf.mono hs.above.grows⟩

omit hk hval in
-- The residual of an expression with a value is a literal of that value.
theorem residualValue {fuel calls : Nat} {w : Value} (hs : s.Mirrors m ρ depth)
    (hrun : R = Reference.run m fuel calls)
    (hval : ∀ {k} {v : k.Val}, R ρ k x = some v → ∃ t, ev.value k x s = .ok v t ∧ t.Mirrors m ρ depth)
    (hw : R.operand m ρ x = some w) :
    ∃ a t, residualStep ev limit x s = .ok a t ∧ t.Mirrors m ρ depth ∧ t.model.Stores a w := by
  have ⟨k, hk, hw⟩ := Option.bind_eq_some_iff.mp hw
  have ⟨v, hv, hw⟩ := Option.bind_eq_some_iff.mp hw
  cases hw
  have hval := hval hv
  have hsm := Ty.smaller_of_kind hk
  have leaf : Reference.isLeaf (m.kind x) → k.literal? x (m.kind x) = none → False := fun hx hl => by
    simp [hrun, Reference.run_leaf hx hsm hl] at hv
  have hexpr := hs.above.grows.expr_eq (hx.present hm.toPlaced)
  have hkind : (m.expr x).kind = m.kind x := rfl
  cases hd : m.kind x
  case anon | typeVar | absent | comp =>
    refine (leaf (by rw [hd]; rfl) ?_).elim
    rw [hd]
    cases k <;> rfl
  case string text =>
    cases k
    case string =>
      have hlit : m.Stores x ⟨.string, text⟩ := ⟨by rw [hd]; rfl, rfl⟩
      obtain rfl : v = text := Reference.run_literal hsm (by rw [hd]; rfl) (hrun ▸ hv)
      refine ⟨x, s, ?_, hs, hlit.mono hs.above.grows⟩
      simp only [residualStep, model_bind, hexpr, hkind, hd]
      rfl
    all_goals exact (leaf (by rw [hd]; rfl) (by rw [hd]; rfl)).elim
  case ident name d =>
    obtain ⟨R', d, rfl, hname⟩ := Reference.run_ident hd hsm (hrun ▸ hv)
    exact identResidual hm hx hk hval hs hd hname
  all_goals
    simp only [residualStep, model_bind, hexpr, hkind, hd]
    exact storedValue hm hx hk hval

end Residuals
end Simulates

section Run

variable {m : Model} {e : ExprId} {limit : Nat}

-- Every step of the machine takes one unit of fuel, and a residual takes one more.
theorem simulates_run (hm : m.Evaluable e) (n : Nat) {f calls depth : Nat} (hf : 2 * n + 1 ≤ f)
    (hd : depth + calls = limit) : Simulates m e depth (run limit f) (Reference.run m n calls) := by
  induction n generalizing f calls depth with
  | zero =>
    refine ⟨fun _ _ hv => (nomatch hv), fun _ _ hv => ?_, fun hst => run_stores hst (by omega),
      framing_run limit f, valuing_run limit f⟩
    have ⟨_, _, hv⟩ := Option.bind_eq_some_iff.mp hv
    cases hv
  | succ n ih =>
    have value : ∀ {f}, 2 * n + 2 ≤ f → ∀ {ρ x s k v}, m.Situated e ρ x → s.Mirrors m ρ depth →
        Reference.run m (n + 1) calls ρ k x = some v →
          ∃ t, run limit f (.value k) x s = .ok v t ∧ t.Mirrors m ρ depth := by
      intro f hf ρ x s k v hx hs hv
      obtain ⟨f, rfl⟩ : ∃ i, f = i + 1 := ⟨f - 1, by omega⟩
      refine (ih (by omega) hd).stepValue rfl (fun B hB => ?_) hm hx hs hv
      cases calls with
      | zero => cases hB
      | succ calls =>
        cases hB
        exact ⟨by omega, ih (by omega) (by omega), calls, rfl⟩
    refine ⟨fun hx hs hv => value (by omega) hx hs hv, fun hx hs hv => ?_,
      fun hst => run_stores hst (by omega), framing_run limit f, valuing_run limit f⟩
    obtain ⟨f, rfl⟩ : ∃ i, f = i + 1 := ⟨f - 1, by omega⟩
    exact Simulates.residualValue hm hx hs rfl (fun hv => value (by omega) hx hs hv) hv

theorem mirrors_start (m : Model) : Machine.Mirrors m { model := m } [] 0 where
  above := ⟨.refl _, rfl, rfl, fun _ => .refl _⟩
  tops _ _ := ⟨rfl, .inl rfl⟩
  flat := by simp
  binds := by simp
  depth := rfl

-- The fuel of an evaluation is enough for calls up to the limit and each expression met in them.
theorem demand_le_fuelFor (m : Model) (limit : Nat) :
    2 * ((limit + 1) * Fintype.card (Reference.Demand m)) + 1 ≤ fuelFor limit m := by
  have hcard : Fintype.card (Reference.Demand m) = 14 * m.exprs.size := by
    have hk : Fintype.card ValueKind = 7 := rfl
    rw [Fintype.card_prod, Fintype.card_prod, hk, Fintype.card_fin, Fintype.card_bool]
    omega
  have hsize : m.exprs.size ≤ m.size := by
    unfold Model.size
    omega
  calc 2 * ((limit + 1) * Fintype.card (Reference.Demand m)) + 1
      ≤ (4 * (limit + 1)) * (7 * m.size + 1) := by rw [hcard]; nlinarith
    _ ≤ (limit + 2) ^ 2 * (m.size + 2) ^ 2 := by
      gcongr
      · nlinarith
      · zify
        nlinarith [sq_nonneg (2 * (m.size : ℤ) - 3)]
    _ = fuelFor limit m := by rw [fuelFor, Model.walkFuel, sq, sq]

-- Evaluation in environments is refined by evaluation on the machine: every value of an expression
-- is found.
theorem evaluation_refines {k : ValueKind} {v : k.Val} (hm : m.Evaluable e)
    (hv : m.Evaluates limit k e v) : (m.evaluate (.value k) e limit).1 = .ok v := by
  obtain ⟨fuel, hv⟩ := hv
  have hstart := Situated.start hm.toPlaced
  have hv := Reference.run_bounded hm.toPlaced limit [] ([], e) (by simp [Env.IsArgs])
    ⟨.refl, [], .of_root hm.place List.mem_cons_self, rfl⟩ fuel k v hv
  have hsim := simulates_run hm _ (demand_le_fuelFor m limit) (Nat.zero_add limit)
  obtain ⟨t, ht, _⟩ := hsim.value hstart (mirrors_start m) hv
  exact runEval_eq_ok.mpr ⟨t, ht⟩

end Run

section Examples

-- `int: n = 2;` and
-- `function int: f(int in 0..2: k) = if k = 0 then n else let { int: j = k - 1 } in f(j) * k endif;`,
-- beside the expression `f(n)`.
def productModel : Model where
  exprs := #[{ kind := .int 2, ty := .parInt },
    { kind := .ident "k" (some ⟨1⟩), ty := .parInt }, { kind := .int 0, ty := .parInt },
    { kind := .bin .eq ⟨1⟩ ⟨2⟩ none, ty := .parBool }, { kind := .ident "n" (some ⟨0⟩), ty := .parInt },
    { kind := .ident "k" (some ⟨1⟩), ty := .parInt }, { kind := .int 1, ty := .parInt },
    { kind := .bin .sub ⟨5⟩ ⟨6⟩ none, ty := .parInt }, { kind := .ident "j" (some ⟨2⟩), ty := .parInt },
    { kind := .call "f" [⟨8⟩] (some ⟨0⟩), ty := .parInt }, { kind := .ident "k" (some ⟨1⟩), ty := .parInt },
    { kind := .bin .mul ⟨9⟩ ⟨10⟩ none, ty := .parInt },
    { kind := .letIn ⟨[.decl ⟨2⟩], ⟨11⟩, [some ⟨7⟩]⟩, ty := .parInt },
    { kind := .ite [(⟨3⟩, ⟨4⟩)] ⟨12⟩, ty := .parInt }, { kind := .ident "n" (some ⟨0⟩), ty := .parInt },
    { kind := .call "f" [⟨14⟩] (some ⟨0⟩), ty := .parInt }, { kind := .bin .range ⟨17⟩ ⟨18⟩ none, ty := .parSetInt },
    { kind := .int 0, ty := .parInt }, { kind := .int 2, ty := .parInt }]
  decls := #[{ name := "n", ti := ⟨0⟩, init := some ⟨0⟩, toplevel := true, ty := .parInt },
    { name := "k", ti := ⟨1⟩, ty := .parInt }, { name := "j", ti := ⟨3⟩, init := some ⟨7⟩, ty := .parInt }]
  typeInsts := #[{ ty := .parInt }, { ty := .parInt, domain := some ⟨16⟩ }, { ty := .parInt },
    { ty := .parInt }]
  funcs := #[{ name := "f", params := [⟨1⟩], ret := ⟨2⟩, body := some ⟨13⟩ }]
  items := #[{ item := .decl ⟨0⟩ }, { item := .func ⟨0⟩ }]
  overloads := [("f", [⟨0⟩])]

theorem only_product (d : DeclId) : only? productModel d = none := by
  obtain ⟨i⟩ := d
  by_cases hi : i < 3
  · revert i
    decide
  · have hd : productModel.decl ⟨i⟩ = default := decl_of_le (Nat.le_of_not_lt hi)
    simp only [only?, domain, hd]
    rfl

theorem evaluable_product : productModel.Evaluable ⟨15⟩ where
  place := .of_nodup [.expr ⟨15⟩, .decl ⟨0⟩, .typeInst ⟨2⟩, .decl ⟨1⟩, .expr ⟨13⟩, .typeInst ⟨0⟩, .expr ⟨0⟩,
      .typeInst ⟨1⟩, .expr ⟨16⟩, .expr ⟨3⟩, .expr ⟨1⟩, .expr ⟨2⟩, .expr ⟨4⟩, .expr ⟨12⟩, .decl ⟨2⟩,
      .typeInst ⟨3⟩, .expr ⟨7⟩, .expr ⟨5⟩, .expr ⟨6⟩, .expr ⟨11⟩, .expr ⟨9⟩, .expr ⟨8⟩, .expr ⟨10⟩,
      .expr ⟨14⟩, .expr ⟨17⟩, .expr ⟨18⟩]
    (by decide) (by decide) (by decide) (by decide)
  callees := by
    rintro ⟨i⟩ f args - hf
    obtain rfl : f = ⟨0⟩ := by
      by_cases hi : i < 19
      · have h : ∀ i < 19, ∀ c ∈ productModel.callee? ⟨i⟩, c.1 = ⟨0⟩ := by decide
        exact h i hi _ hf
      · have hk : productModel.expr ⟨i⟩ = default := expr_of_le (Nat.le_of_not_lt hi)
        simp only [callee?, kind, hk] at hf
        cases hf
    exact ⟨⟨none, 1⟩, by decide, rfl⟩
  marked := by
    rintro ⟨i⟩ hd
    by_cases hi : i < 3
    · have h : ∀ i < 3, (productModel.decl ⟨i⟩).toplevel → productModel.isToplevel ⟨i⟩ := by decide
      exact h i hi hd
    · rw [decl_of_le (m := productModel) (d := ⟨i⟩) (Nat.le_of_not_lt hi)] at hd
      cases hd
  noted := by
    rintro ⟨i⟩ l - hl
    obtain rfl : i = 12 := by
      by_contra hne
      by_cases hi : i < 19
      · interval_cases i <;> contradiction
      · rw [kind, expr_of_le (m := productModel) (e := ⟨i⟩) (Nat.le_of_not_lt hi)] at hl
        cases hl
    cases hl
    intro i d hi
    cases i with
    | zero =>
      cases hi
      rfl
    | succ i => cases hi
  fixed := by
    rintro ⟨i⟩ -
    by_cases hi : i < 19
    · revert i
      decide
    · rw [ty, expr_of_le (m := productModel) (e := ⟨i⟩) (Nat.le_of_not_lt hi)]
      rfl
  bare := by simp [only_product]
  single := by simp [only_product]

theorem evaluation_refines_product :
    productModel.Evaluable ⟨15⟩ ∧ productModel.Evaluates 3 .int ⟨15⟩ (4 : Int64) ∧
      (productModel.evaluate (.value .int) ⟨15⟩ 3).1 = .ok (4 : Int64) :=
  have hv : productModel.Evaluates 3 .int ⟨15⟩ (4 : Int64) := ⟨20, by cbv⟩
  ⟨evaluable_product, hv, evaluation_refines evaluable_product hv⟩

-- `function bool: f(bool in {1}: p, bool in {2}: q) = (p = q);` beside the expression `f(true, true)`.
def sameModel (ty : Ty) (p q test call : Expr) : Model where
  exprs := #[{ kind := .intSet (.range 1 1), ty := .parSetInt },
    { kind := .intSet (.range 2 2), ty := .parSetInt }, p, q, test, { kind := .bool true, ty := .parBool },
    { kind := .bool true, ty := .parBool }, call]
  decls := #[{ name := "p", ti := ⟨0⟩, ty }, { name := "q", ti := ⟨1⟩, ty },
    { name := "x0", ti := ⟨3⟩, ty := .parBool }, { name := "x1", ti := ⟨4⟩, ty := .parBool }]
  typeInsts := #[{ ty := .parBool, domain := some ⟨0⟩ }, { ty := .parBool, domain := some ⟨1⟩ },
    { ty := .parBool }, { ty := .parBool }, { ty := .parBool }, { ty := .parBool }]
  funcs := #[{ name := "f", params := [⟨0⟩, ⟨1⟩], ret := ⟨2⟩, body := some ⟨4⟩ },
    { name := "=", params := [⟨2⟩, ⟨3⟩], ret := ⟨5⟩ }]
  items := #[{ item := .func ⟨0⟩ }]
  overloads := [("int2float", []), ("=", [⟨1⟩]), ("f", [⟨0⟩])]

-- The same after a check, and with the expression checked.
def sameChecked (call : Expr) : Model :=
  sameModel .parBool { kind := .ident "p" (some ⟨0⟩), ty := .parBool }
    { kind := .ident "q" (some ⟨1⟩), ty := .parBool } { kind := .bin .eq ⟨2⟩ ⟨3⟩ none, ty := .parBool } call

def sameTyped : Model := sameChecked { kind := .call "f" [⟨5⟩, ⟨6⟩] (some ⟨0⟩), ty := .parBool }

-- The only value of a domain is taken for the argument, though domains of truth values are not checked.
theorem domain_replaces_argument :
    check { library := false } (sameModel .unknown { kind := .ident "p" none } { kind := .ident "q" none }
        { kind := .bin .eq ⟨2⟩ ⟨3⟩ none } { kind := .call "f" [⟨5⟩, ⟨6⟩] none }) =
        .ok ⟨[], [⟨0⟩, ⟨1⟩]⟩ (sameChecked { kind := .call "f" [⟨5⟩, ⟨6⟩] none }) ∧
      checkExpr ⟨7⟩ (sameChecked { kind := .call "f" [⟨5⟩, ⟨6⟩] none }) = .ok .parBool sameTyped ∧
      sameTyped.Evaluates 1 .bool ⟨7⟩ true ∧ (sameTyped.evaluate (.value .bool) ⟨7⟩ 1).1 = .ok false :=
  ⟨by cbv, by cbv, ⟨10, by cbv⟩, by cbv⟩

end Examples
end Parvar
