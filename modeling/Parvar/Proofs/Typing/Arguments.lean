import Parvar.Proofs.Typing.Coercible
import Parvar.Proofs.Typing.Finishing

/-!
What the arguments of calls and operators are like when these have been typed. An argument is turned into what
its parameter asks for. The rank to be had is that of the parameter, or that of the argument where the parameter
takes any, so no array is made of a set there.
-/

namespace Parvar

open Model Library Typing

namespace Ty

-- A value of type `b` is what a parameter of type `t` asks for.
structure Fits (b t : Ty) : Prop where
  array : b.dim ≠ 0 ↔ t.dim ≠ 0
  rank : t.dim ≠ -1 → b.dim = t.dim
  base : t.base ≠ .top → b.base ≠ .bot → b.base = t.base
  set : t.base ≠ .top → b.base ≠ .bot → b.isSet = t.isSet

-- What it takes for an argument of type `a` to be turned into what a parameter of type `t` asks for: a set goes into
-- arrays of one dimension only, and no number is widened for a type variable or for what has no elements.
structure Suits (generic : Bool) (t a : Ty) : Prop where
  rank : a.dim = 0 → t.dim ≠ 0 → t.dim = 1
  base : generic ∨ t.base = .bot → baseAgrees a t

variable {a b t : Ty} {generic : Bool}

section Subtypes

variable (hs : a.sub t) (hd : a.dim = 0 → t.dim = 0)

include hd

theorem not_setAsArray : setAsArray a t = false := by
  simp only [setAsArray]
  grind

include hs

theorem dimFits_of_sub : a.dim = t.dim ∨ a.dim ≠ 0 ∧ t.dim = -1 := by
  simp only [Ty.sub, not_setAsArray hd, Bool.false_or, Bool.and_eq_true] at hs
  simpa [dimFits] using hs.1

theorem isSet_of_sub (ha : a.base ≠ .bot) (htop : t.base ≠ .top) (hbot : t.base ≠ .bot) : a.isSet = t.isSet := by
  simp only [Ty.sub, not_setAsArray hd, elemSub] at hs
  grind

end Subtypes

theorem Suits.base_eq (h : Suits generic t a) (hb : ¬(generic ∨ t.base = .top) → t.base ≠ .bot → baseAgrees a t)
    (htop : t.base ≠ .top) (ha : a.base ≠ .bot) : a.base = t.base := by
  refine base_eq_of_agrees ?_ htop ha
  by_cases hg : generic ∨ t.base = .bot
  · exact h.base hg
  · exact hb (fun h => h.elim (fun h => hg (.inl h)) htop) fun h => hg (.inr h)

theorem Fits.baseAgrees (h : b.Fits t) (hb : b.base = a.base) : baseAgrees a t := by
  by_contra hn
  simp only [Model.baseAgrees, Bool.or_eq_true, decide_eq_true_eq, not_or] at hn
  exact hn.1.2 (hb ▸ h.base hn.1.1 (hb ▸ hn.2))

-- The base to be had is that of the parameter, unless a type variable takes the argument's.
theorem base_target_of_not (h : ¬(generic ∨ t.base = .top)) : (target generic t a).base = t.base := by
  rw [base_target, if_neg]
  simpa using h

theorem Meets.fits_iff (hs : a.sub t) (h : a.Meets (target generic t a)) : a.Fits t ↔ Suits generic t a := by
  refine ⟨fun hf => ⟨fun ha ht => absurd ha (hf.array.mpr ht), fun _ => hf.baseAgrees rfl⟩, fun hsuits => ?_⟩
  have hd : a.dim = 0 → t.dim = 0 := by
    intro ha
    by_contra ht
    have hone := hsuits.rank ha ht
    have hdim : (target generic t a).dim = 1 := by rw [dim_target, if_neg (by omega), hone]
    rcases h with ⟨h, -⟩ | ⟨h, -⟩
    · omega
    · exact h ⟨ha, by omega⟩
  have hbase : t.base ≠ .top → a.base ≠ .bot → a.base = t.base := by
    refine hsuits.base_eq fun hg hbot => ?_
    have heq := base_target_of_not (a := a) hg
    have hagrees : Model.baseAgrees a (target generic t a) := by
      rcases h with ⟨-, h⟩ | ⟨-, h⟩
      · exact h.resolve_left (heq ▸ hbot)
      · exact h
    simpa only [Model.baseAgrees, heq] using hagrees
  have hdim := dimFits_of_sub hs hd
  refine ⟨⟨?_, mt hd⟩, fun hany => ?_, hbase, fun htop ha => ?_⟩
  · intro ha ht
    omega
  · omega
  · exact isSet_of_sub hs hd ha htop (hbase htop ha ▸ ha)

theorem fits_iff_listed (hs : a.sub t) (hset : a.isSetTy) (hdim : (target generic t a).dim ≠ 0)
    (hb : baseAgrees a (target generic t a)) : ((a.withSet false).withDim 1).Fits t ↔ Suits generic t a := by
  have ha : a.dim = 0 := by simp_all [isSetTy]
  have hany : t.dim ≠ -1 := by
    intro hany
    rw [dim_target, if_pos hany] at hdim
    exact hdim ha
  have ht : t.dim ≠ 0 := by rwa [dim_target, if_neg hany] at hdim
  refine ⟨fun hf => ⟨fun _ _ => (hf.rank hany).symm, fun _ => hf.baseAgrees rfl⟩, fun hsuits => ?_⟩
  have htset : t.isSet = false := by
    have h := setAsArray_of_sub hs ha ht
    simp only [setAsArray, Bool.and_eq_true] at h
    simpa using h.1.1.1.2
  refine ⟨⟨fun _ => ht, fun _ => Int.one_ne_zero⟩, fun _ => (hsuits.rank ha ht).symm, ?_, fun _ _ => htset.symm⟩
  refine hsuits.base_eq fun hg _ => ?_
  simpa only [Model.baseAgrees, base_target_of_not hg] using hb

theorem fits_iff_widened (hs : a.sub t) (hp : a.isPlain) (hdim : (target generic t a).dim = 0)
    (hb : a.base.sub (target generic t a).base) (hne : a.base ≠ (target generic t a).base) :
    (a.withBase (target generic t a).base).Fits t ↔ Suits generic t a := by
  have hg : ¬(generic ∨ t.base = .top) := by
    intro hg
    rw [base_target, if_pos (by simpa using hg)] at hne
    exact hne rfl
  rw [base_target_of_not hg] at hb hne ⊢
  simp only [isPlain, Bool.and_eq_true, decide_eq_true_eq, Bool.not_eq_true'] at hp
  obtain ⟨⟨hz, hset⟩, -⟩ := hp
  have ht : t.dim = 0 := by
    rw [dim_target] at hdim
    split at hdim
    · next hany =>
      have h := (isSet_of_setAsArray (setAsArray_of_sub hs hz (by omega))).1
      rw [hset] at h
      cases h
    · exact hdim
  obtain ⟨name, hw⟩ := widening_of_ne hb hne
  have hbot : a.base ≠ .bot ∧ t.base ≠ .bot := by
    revert hw
    generalize a.base = b, t.base = c
    cases b <;> cases c <;> simp [widening?]
  have htset := isSet_of_sub hs (fun _ => ht) hbot.1 (fun h => hg (.inr h)) hbot.2
  refine iff_of_true ⟨?_, fun _ => hz.trans ht.symm, fun _ _ => rfl, fun _ _ => htset⟩ ⟨fun _ h => absurd ht h, ?_⟩
  · exact not_congr ⟨fun _ => ht, fun _ => hz⟩
  · rintro (h | h)
    · exact absurd (.inl h) hg
    · exact absurd h hbot.2

-- What an argument has become is what its parameter asks for, if and only if the argument suits it.
theorem Becomes.fits_iff (hs : a.sub t) (h : a.Becomes (target generic t a) b) : b.Fits t ↔ Suits generic t a := by
  cases h with
  | same h => exact h.fits_iff hs
  | listed hset _ _ hdim hb => exact fits_iff_listed hs hset hdim hb
  | widened hp hdim hb hne => exact fits_iff_widened hs hp hdim hb hne

end Ty

section Nodes

-- What a function is applied to: its name, the arguments, and the function itself if it is noted.
def ExprKind.application? : ExprKind → Option (String × List ExprId × Option FuncId)
  | .call name args fn => some (name, args, fn)
  | .bin op lhs rhs fn => some (op.name, [lhs, rhs], fn)
  | .un op arg fn => some (op.name, [arg], fn)
  | _ => none

-- The arguments of a node have been typed, and none of them is the node itself.
structure Model.Ready (m : Model) (e : ExprId) (args : List ExprId) : Prop where
  promotes : m.Promotes
  present : ∀ x ∈ e :: args, x.index < m.exprs.size
  apart : e ∉ args

-- The node notes `f`, or leaves it to the symbol of an operator.
def Model.Notes (m : Model) (f : FuncId) (fn : Option FuncId) : Prop := fn = some f ∨ fn = none ∧ (m.func f).body = none

-- The typing of a node whose arguments have been typed.
def Typing.application (e : ExprId) : ExprKind → CheckM Unit
  | .call name args _ => call e name args
  | .bin op lhs rhs _ => bin e op lhs rhs
  | .un op arg _ => un e op arg
  | _ => pure ()

variable {m : Model} {e : ExprId} {k : ExprKind} {name : String} {args : List ExprId} {fn : Option FuncId}
  {c c' : Checking} {errors : Array TypeError}

theorem Model.notes_withBody (m : Model) (f : FuncId) : m.Notes f (m.withBody? (some f)) := by
  rw [Notes, withBody?, Option.filter]
  cases h : (m.func f).body <;> simp

-- A node that has been typed: an overload was found for its arguments, and these were turned for it.
structure Model.Applied (m : Model) (e : ExprId) (name : String) (args : List ExprId) (f : FuncId) (m₁ : Model)
    (args' : List ExprId) : Prop where
  chosen : m.matchOverload? name (args.map m.ty) = some f
  wraps : m.Wraps (· ∈ args) m₁
  turned : List.Forall₂ (fun q a' => m.Turned q.1 q.2 m₁ a') (args.zip (m.argTys f (args.map m.ty))) args'

theorem Model.Applied.length_eq {f : FuncId} {m₁ : Model} {args' : List ExprId} (h : m.Applied e name args f m₁ args') :
    args'.length = args.length := by
  obtain ⟨fs, -, hfind⟩ := Option.bind_eq_some_iff.mp h.chosen
  have hacc := accepts_iff.mp (List.find?_eq_some_iff_append.mp hfind).1
  have hlen := h.turned.length_eq
  have hparams := hacc.length_eq
  simp only [List.length_zip, argTys, List.length_map] at hlen hparams
  omega

-- The type of the node is marked as its arguments are.
theorem Typing.application_marks (hready : m.Ready e args) (hk : k.application? = some (name, args, fn))
    (h : application e k { model := m, errors } = .ok ⟨⟩ c') :
    ∃ f m₁ args' k' fn' t, m.Applied e name args f m₁ args' ∧ k'.application? = some (name, args', fn') ∧
      m₁.Notes f fn' ∧ (∀ a ∈ args', (m₁.ty a).cv → t.cv) ∧ c'.model = m₁.setNode e k' t := by
  have happlied : ∀ {f args' t c}, m.matchOverload? name (args.map m.ty) = some f →
      applied e f args (args.map m.ty) { model := m, errors } = .ok (args', t) c →
      ∃ m₁, c = { model := m₁, errors } ∧ m.Applied e name args f m₁ args' ∧ ∀ a ∈ args', (m₁.ty a).cv → t.cv := by
    intro f args' t c hf hc
    obtain ⟨fs, -, hfind⟩ := Option.bind_eq_some_iff.mp hf
    have hacc := (List.find?_eq_some_iff_append.mp hfind).1
    obtain ⟨m₁, u, rfl, hw, -, rfl, hall⟩ :=
      applied_turns args hready.promotes (fun a ha => hready.present a (List.mem_cons_of_mem _ ha)) hacc hc
    refine ⟨m₁, rfl, ⟨hf, hw, hall⟩, fun a ha hcv => ?_⟩
    have hany : (args'.map m₁.ty).any (·.cv) := List.any_eq_true.mpr ⟨_, List.mem_map_of_mem ha, hcv⟩
    simp [Ty.withCv, hany]
  cases k <;> cases hk
  case call =>
    rw [application, call, checkM_model_bind] at h
    cases hf : m.matchOverload? name (args.map m.ty) with
    | none =>
      simp only [hf] at h
      cases h
    | some f =>
      simp only [hf] at h
      obtain ⟨⟨args', t⟩, c, hc, h⟩ := bind_eq_ok.mp h
      obtain ⟨m₁, rfl, happ, hcv⟩ := happlied hf hc
      cases h
      exact ⟨f, m₁, args', .call name args' (some f), some f, t, happ, rfl, .inl rfl, hcv, rfl⟩
  case bin op lhs rhs =>
    rw [application, bin, checkM_model_bind] at h
    cases hf : m.matchOverload? op.name [m.ty lhs, m.ty rhs] with
    | none =>
      simp only [hf] at h
      cases h
    | some f =>
      simp only [hf] at h
      obtain ⟨⟨args', t⟩, c, hc, h⟩ := bind_eq_ok.mp h
      obtain ⟨m₁, rfl, happ, hcv⟩ := happlied hf hc
      obtain ⟨l, r, rfl⟩ : ∃ l r, args' = [l, r] := List.length_eq_two.mp happ.length_eq
      cases h
      exact ⟨f, m₁, [l, r], .bin op l r (m₁.withBody? (some f)), _, t, happ, rfl, m₁.notes_withBody f, hcv, rfl⟩
  case un op arg =>
    rw [application, un, checkM_model_bind] at h
    cases hf : m.matchOverload? op.name [m.ty arg] with
    | none =>
      simp only [hf] at h
      cases h
    | some f =>
      simp only [hf] at h
      obtain ⟨⟨args', t⟩, c, hc, h⟩ := bind_eq_ok.mp h
      obtain ⟨m₁, rfl, happ, hcv⟩ := happlied hf hc
      obtain ⟨a, rfl⟩ : ∃ a, args' = [a] := List.length_eq_one_iff.mp happ.length_eq
      cases h
      exact ⟨f, m₁, [a], .un op a (m₁.withBody? (some f)), _, t, happ, rfl, m₁.notes_withBody f, hcv, rfl⟩

theorem Typing.application_eq_ok (hready : m.Ready e args) (hk : k.application? = some (name, args, fn))
    (h : application e k { model := m, errors } = .ok ⟨⟩ c') :
    ∃ f m₁ args' k' fn' t, m.Applied e name args f m₁ args' ∧ k'.application? = some (name, args', fn') ∧
      m₁.Notes f fn' ∧ c'.model = m₁.setNode e k' t := by
  obtain ⟨f, m₁, args', k', fn', t, happ, hk', hnotes, -, hm⟩ := application_marks hready hk h
  exact ⟨f, m₁, args', k', fn', t, happ, hk', hnotes, hm⟩

theorem Typing.node_eq_application (visit : Visit) (hk : k.application? = some (name, args, fn)) :
    node visit e k = exprs visit args >>= fun _ => application e k := by
  cases k <;> cases hk
  case call | bin => rfl
  case un => simp [node, exprs, application]

theorem Model.Adds.paramTy_eq {m₁ : Model} (h : m.Adds m₁) (p : DeclId) : m₁.paramTy p = m.paramTy p := by
  have ht : m₁ = { m with exprs := m₁.exprs } := h.tables
  rw [ht]
  rfl

theorem Model.Adds.func_eq {m₁ : Model} (h : m.Adds m₁) (f : FuncId) : m₁.func f = m.func f := by
  rw [func, func, h.tables]

-- Each argument suits its parameter if and only if what it was turned into fits.
theorem fits_iff_suits {m₁ : Model} {ps : List DeclId} {args' : List ExprId} {t : Ty} (he : e.index < m.exprs.size)
    (hne : e ∉ args) (hacc : List.Forall₂ (fun p a => (m.ty a).sub (m.paramTy p)) ps args)
    (hall : List.Forall₂ (fun q a' => m.Turned q.1 q.2 m₁ a')
      (args.zip ((ps.zip (args.map m.ty)).map fun (p, a) => m.argTy p a)) args') :
    List.Forall₂ (fun p a' => ((m₁.setNode e k t).ty a').Fits (m.paramTy p)) ps args' ↔
      List.Forall₂ (fun p a => Ty.Suits (m.typeVar? (m.decl p).ti).isSome (m.paramTy p) (m.ty a)) ps args := by
  induction hacc generalizing args' with
  | nil =>
    cases hall
    exact iff_of_true .nil .nil
  | cons hs _ ih =>
    simp only [List.map_cons, List.zip_cons_cons] at hall
    simp only [List.mem_cons, not_or] at hne
    cases hall with
    | cons ha hall =>
      rw [List.forall₂_cons, List.forall₂_cons]
      exact and_congr (Ty.Becomes.fits_iff hs (ha.ty_setNode he (Ne.symm hne.1)).2) (ih hne.2 hall)

-- A call or operator that has been typed: an overload was found for its arguments, and they fit its parameters as they
-- now stand if and only if they suited them before.
theorem arguments_fit_iff {pass : Pass} {fuel : Nat} (hk : (c.model.kind e).application? = some (name, args, fn))
    (hready : ∀ c₁, exprs (walk pass fuel) args c = .ok ⟨⟩ c₁ → c₁.model.Ready e args)
    (h : walk pass (fuel + 1) (.expr e) c = .ok ⟨⟩ c') :
    ∃ c₁ c₂ f args' fn', exprs (walk pass fuel) args c = .ok ⟨⟩ c₁ ∧
      c₁.model.matchOverload? name (args.map c₁.model.ty) = some f ∧
      (c₂.model.kind e).application? = some (name, args', fn') ∧ c₂.model.Notes f fn' ∧
      annotations (walk pass fuel) (c₁.model.expr e).ann c₂ = .ok ⟨⟩ c' ∧
      (List.Forall₂ (fun p a' => (c₂.model.ty a').Fits (c₂.model.paramTy p)) (c₂.model.func f).params args' ↔
        List.Forall₂ (fun p a => Ty.Suits (c₁.model.typeVar? (c₁.model.decl p).ti).isSome (c₁.model.paramTy p)
          (c₁.model.ty a)) (c₁.model.func f).params args) := by
  rw [walk, site, Typing.expr, checkM_model_bind] at h
  obtain ⟨⟨⟩, c₂, hnode, hann⟩ := bind_eq_ok.mp h
  rw [node_eq_application _ hk] at hnode
  obtain ⟨⟨⟩, ⟨m₁, errors⟩, hargs, happ⟩ := bind_eq_ok.mp hnode
  have hr := hready _ hargs
  obtain ⟨f, m₂, args', k', fn', t, happ, hk', hnotes, hm₂⟩ := application_eq_ok hr hk happ
  obtain ⟨fs, -, hfind⟩ := Option.bind_eq_some_iff.mp happ.chosen
  have hacc := accepts_iff.mp (List.find?_eq_some_iff_append.mp hfind).1
  rw [List.forall₂_map_right_iff] at hacc
  have he : e.index < m₂.exprs.size :=
    Nat.lt_of_lt_of_le (hr.present e List.mem_cons_self) happ.wraps.grows.size_le
  have hannEq : (c₂.model.expr e).ann = (m₁.expr e).ann := by
    rw [hm₂, expr_setNode_self he, happ.wraps.grows.expr_eq (hr.present e List.mem_cons_self)]
  refine ⟨_, c₂, f, args', fn', hargs, happ.chosen, ?_, ?_, hannEq ▸ hann, ?_⟩
  · rw [hm₂, kind_setNode he]
    exact hk'
  · rw [hm₂]
    exact hnotes
  · have hfunc : (m₂.setNode e k' t).func f = m₁.func f := happ.wraps.func_eq f
    have hparam : (m₂.setNode e k' t).paramTy = m₁.paramTy := funext happ.wraps.paramTy_eq
    rw [hm₂, hfunc, hparam]
    exact fits_iff_suits (hr.present e List.mem_cons_self) hr.apart hacc happ.turned

end Nodes

section Samples

-- `f(1)` with `function float: f(float: x)`.
def floatCall : Model where
  exprs := #[{ kind := .int 1, ty := .parInt }, { kind := .call "f" [⟨0⟩] none }]
  decls := #[{ name := "x", ti := ⟨0⟩, ty := .parFloat }]
  typeInsts := #[{ ty := .parFloat }]
  funcs := #[{ name := "f", params := [⟨0⟩], ret := ⟨0⟩ }]
  overloads := [("f", [⟨0⟩])]

-- `f(int2float(1))`
def floatCallTyped : Model :=
  (floatCall.withCoercions.addExpr { kind := .call "int2float" [⟨0⟩] (some ⟨3⟩), ty := .parFloat }).2.setNode
    ⟨1⟩ (.call "f" [⟨4⟩] (some ⟨0⟩)) .parFloat

theorem arguments_fit_widened :
    walk .check 2 (.expr ⟨1⟩) { model := floatCall.withCoercions } = .ok ⟨⟩ { model := floatCallTyped } ∧
      (floatCallTyped.kind ⟨1⟩).application? = some ("f", [⟨4⟩], some ⟨0⟩) ∧
      List.Forall₂ (fun p a' => (floatCallTyped.ty a').Fits (floatCallTyped.paramTy p))
        (floatCallTyped.func ⟨0⟩).params [⟨4⟩] := by
  have hrun : walk .check 2 (.expr ⟨1⟩) { model := floatCall.withCoercions } = .ok ⟨⟩ { model := floatCallTyped } := by
    cbv
  have hargs : exprs (walk .check 1) [⟨0⟩] { model := floatCall.withCoercions } =
      .ok ⟨⟩ { model := floatCall.withCoercions } := by cbv
  have hf₀ : floatCall.withCoercions.matchOverload? "f" ([⟨0⟩].map floatCall.withCoercions.ty) = some ⟨0⟩ := by cbv
  have hready : floatCall.withCoercions.Ready ⟨1⟩ [⟨0⟩] :=
    ⟨promotes_withCoercions (by decide), by decide +kernel, by decide⟩
  have hkind : (floatCallTyped.kind ⟨1⟩).application? = some ("f", [⟨4⟩], some ⟨0⟩) := by
    rw [floatCallTyped, kind_setNode (by decide +kernel)]
    rfl
  have hext := extends_withCoercions floatCall
  have hexpr : ∀ i < 2, floatCall.withCoercions.expr ⟨i⟩ = floatCall.expr ⟨i⟩ := fun i hi => hext.expr_eq hi
  have hsuits : List.Forall₂
      (fun p a => Ty.Suits (floatCall.withCoercions.typeVar? (floatCall.withCoercions.decl p).ti).isSome
        (floatCall.withCoercions.paramTy p) (floatCall.withCoercions.ty a))
      (floatCall.withCoercions.func ⟨0⟩).params [⟨0⟩] := by
    rw [hext.func_eq Nat.zero_lt_one]
    exact .cons ⟨by decide +kernel, by decide +kernel⟩ .nil
  have hann₀ : (floatCall.withCoercions.expr ⟨1⟩).ann = [] := by rw [hexpr 1 Nat.one_lt_two]; rfl
  have hk₀ : (floatCall.withCoercions.kind ⟨1⟩).application? = some ("f", [⟨0⟩], none) := by
    rw [kind, hexpr 1 Nat.one_lt_two]
    rfl
  -- From here on it does not matter what the models are like.
  generalize floatCall.withCoercions = m, floatCallTyped = m' at hrun hargs hkind hready hf₀ hsuits hann₀ hk₀ ⊢
  obtain ⟨c₁, c₂, f, args', fn', h₁, hf, hk, -, hann, hiff⟩ :=
    arguments_fit_iff (c := { model := m }) hk₀ (fun c₁ h => (EStateM.Result.ok.inj (hargs.symm.trans h)).2 ▸ hready) hrun
  obtain rfl := (EStateM.Result.ok.inj (hargs.symm.trans h₁)).2
  obtain rfl := Option.some.inj (hf₀.symm.trans hf)
  rw [hann₀] at hann
  obtain rfl := (EStateM.Result.ok.inj hann).2
  have hargs' : args' = [⟨4⟩] := (Prod.mk.inj (Prod.mk.inj (Option.some.inj (hk.symm.trans hkind))).2).1
  rw [hargs'] at hiff
  exact ⟨hrun, hkind, hiff.mpr hsuits⟩

-- `sum({1})` with `function int: sum(array[$_] of int: x)`; `ty` says what has been found, `fn` what is called.
def sumCall (ty : Ty) (fn : Option FuncId) : Model where
  exprs := #[{ kind := .int 1, ty := .parInt }, { kind := .setLit [⟨0⟩], ty := .parSetInt },
    { kind := .call "sum" [⟨1⟩] fn, ty }]
  decls := #[{ name := "x", ti := ⟨0⟩, ty := Ty.parInt.withDim (-1) }]
  typeInsts := #[{ ty := Ty.parInt.withDim (-1) }, { ty := .parInt }]
  funcs := #[{ name := "sum", params := [⟨0⟩], ret := ⟨1⟩ }]
  overloads := [("sum", [⟨0⟩])]

-- A set is left as it is where an array of any rank is asked for.
theorem set_taken_as_array :
    assignTypes .check (.expr ⟨2⟩) { model := sumCall .unknown none } = .ok ⟨⟩ { model := sumCall .parInt (some ⟨0⟩) } ∧
      ¬((sumCall .parInt (some ⟨0⟩)).ty ⟨1⟩).Fits ((sumCall .parInt (some ⟨0⟩)).paramTy ⟨0⟩) := by
  refine ⟨by cbv, fun h => ?_⟩
  exact absurd h.array (by decide)

end Samples
end Parvar
