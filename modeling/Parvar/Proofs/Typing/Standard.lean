import Parvar.Proofs.Model.Stocked

/-!
Models whose functions are those of the library. Which overload a call is to is then a matter of
the signatures alone: the most specific of those that accept the arguments.
-/

namespace Parvar

open Model

namespace Library

def Signature.accepts (s : Signature) (args : List Ty) : Bool :=
  s.params.length = args.length && (s.params.zip args).all fun (p, a) => a.sub p

def Signature.specificity (s : Signature) : List Int :=
  s.params.length :: s.params.flatMap Ty.specificity

-- The signatures that a call could be to.
def candidates (name : String) (args : List Ty) : List Signature :=
  (signatures.filter (·.name = name)).filter (·.accepts args)

-- No candidate is more specific.
def Chosen (name : String) (args : List Ty) (s : Signature) : Prop :=
  s ∈ candidates name args ∧ ∀ t ∈ candidates name args, Precedes s.specificity t.specificity

end Library

open Library

section Definitions

variable (m : Model)

def Model.Overload (name : String) (f : FuncId) : Prop := ∃ fs, m.overloadsOf? name = some fs ∧ f ∈ fs

-- A type as the library writes it: only `top` is written with a domain.
structure Model.Written (t : TypeInstId) (ty : Ty) : Prop where
  ty_eq : (m.typeInst t).ty = ty
  domain : ty.base ≠ .top → (m.typeInst t).domain = none

structure Model.Parameter (p : DeclId) (ty : Ty) : Prop where
  ty_eq : (m.decl p).ty = ty
  written : m.Written (m.decl p).ti ty

-- A function without a body that has the given signature.
structure Model.Builtin (f : FuncId) (s : Signature) : Prop where
  present : f.index < m.funcs.size
  name : (m.func f).name = s.name
  body : (m.func f).body = none
  params : List.Forall₂ m.Parameter (m.func f).params s.params
  ret : m.Written (m.func f).ret s.ret

-- A parameter that is written with the type variable `T` if it takes any base.
structure Model.Spelled (p : DeclId) (ty : Ty) : Prop extends m.Parameter p ty where
  var : ty.base = .top → m.typeVar? (m.decl p).ti = some "T"

-- A function as the library declares it for the given signature.
structure Model.Verbatim (f : FuncId) (s : Signature) : Prop where
  present : f.index < m.funcs.size
  name : (m.func f).name = s.name
  body : (m.func f).body = none
  params : List.Forall₂ m.Spelled (m.func f).params s.params
  ret : m.Written (m.func f).ret s.ret
  retVar : s.ret.base = .top → m.typeVar? (m.func f).ret = some "T"

-- What can be called could be called before or is declared with one of the given signatures.
structure Model.Provides (m₀ : Model) (ss : List Signature) : Prop where
  found : ∀ name f, m.Overload name f → m₀.Overload name f ∨ ∃ s ∈ ss, s.name = name ∧ m.Verbatim f s
  declared : ∀ s ∈ ss, ∃ f, m.Overload s.name f ∧ m.Verbatim f s

-- What can be called is what has one of the given signatures.
structure Model.Lists (ss : List Signature) : Prop where
  builtin : ∀ name f, m.Overload name f → ∃ s ∈ ss, s.name = name ∧ m.Builtin f s
  declared : ∀ s ∈ ss, ∃ f, m.Overload s.name f ∧ m.Builtin f s

-- The function table holds exactly the library.
def Model.Standard : Prop := m.Lists signatures

-- The more specific of two overloads comes first.
def Model.Sorted : Prop :=
  ∀ name fs, m.overloadsOf? name = some fs → fs.Pairwise fun f g => Precedes (m.specificity f) (m.specificity g)

end Definitions

variable {α β : Type} {m m₀ m₁ w : Model} {f g : FuncId} {s : Signature} {name : String} {args : List Ty}

section Choice

variable (hs : ∀ t ∈ s.params, t.Known) (hf : m.Builtin f s)

theorem Model.Parameter.paramTy_eq {p : DeclId} {ty : Ty} (h : m.Parameter p ty) (ht : ty.Known) :
    m.paramTy p = ty := by
  have hne : ¬ty.isUnknown := by simpa [Ty.isUnknown] using (show ty.base ≠ .unknown from ht)
  simp only [paramTy, h.ty_eq, if_neg hne]

theorem Model.Written.typeVar_eq_none {t : TypeInstId} {ty : Ty} (h : m.Written t ty) (ht : ty.base ≠ .top) :
    m.typeVar? t = none := by
  simp [typeVar?, h.domain ht]

theorem Model.Verbatim.builtin (h : m.Verbatim f s) : m.Builtin f s :=
  ⟨h.present, h.name, h.body, h.params.imp fun _ _ hp => hp.toParameter, h.ret⟩

include hs hf

theorem Model.Builtin.paramTys : (m.func f).params.map m.paramTy = s.params := by
  have hparams := hf.params
  generalize (m.func f).params = ps, s.params = ts at hparams hs
  induction hparams with
  | nil => rfl
  | cons hp _ ih =>
    rw [List.map_cons, hp.paramTy_eq (hs _ List.mem_cons_self), ih fun t ht => hs t (List.mem_cons_of_mem _ ht)]

end Choice

section Parameters

variable (h : (m.func f).params.map m.paramTy = s.params)

include h

theorem Model.accepts_eq : m.accepts f args = s.accepts args := by
  rw [accepts, Signature.accepts, ← h, List.length_map]
  congr 1
  rw [List.zip_map_left, List.all_map]
  rfl

theorem Model.specificity_eq : m.specificity f = s.specificity := by
  rw [specificity, Signature.specificity, ← h, List.length_map, List.flatMap_map]

end Parameters

-- What accepts the arguments too does not come before the first match.
theorem Model.Sorted.precedes (hsorted : m.Sorted) (h : m.matchOverload? name args = some f) (hg : m.Overload name g)
    (hacc : m.accepts g args) : Precedes (m.specificity f) (m.specificity g) := by
  obtain ⟨fs, hfs, hfind⟩ := Option.bind_eq_some_iff.mp h
  obtain ⟨gs, hgs, hg⟩ := hg
  obtain rfl : fs = gs := Option.some.inj (hfs.symm.trans hgs)
  obtain ⟨-, as, bs, happ, has⟩ := List.find?_eq_some_iff_append.mp hfind
  have hpair := hsorted name fs hfs
  rw [happ] at hg hpair
  rcases List.mem_append.mp hg with hg | hg
  · have hno := has g hg
    rw [hacc] at hno
    cases hno
  · rcases List.mem_cons.mp hg with rfl | hg
    · exact List.le_refl (m.specificity g)
    · exact (List.pairwise_cons.mp (List.pairwise_append.mp hpair).2.1).1 g hg

-- Where the functions of some name are those that the library has for it.
theorem Model.Sorted.chosen (hsorted : m.Sorted) {D : FuncId → Signature → Prop}
    (hD : ∀ {f s}, s ∈ signatures → D f s → (m.func f).params.map m.paramTy = s.params)
    (hfound : ∀ f, m.Overload name f → ∃ s ∈ signatures, s.name = name ∧ D f s)
    (hdeclared : ∀ s ∈ signatures, s.name = name → ∃ f, m.Overload name f ∧ D f s)
    (h : m.matchOverload? name args = some f) : ∃ s, D f s ∧ Chosen name args s := by
  have ⟨fs, hfs, hfind⟩ := Option.bind_eq_some_iff.mp h
  have ⟨s, hmem, hname, hf⟩ := hfound f ⟨fs, hfs, List.mem_of_find?_eq_some hfind⟩
  have hspec : ∀ {g t}, t ∈ signatures → D g t →
      m.accepts g args = t.accepts args ∧ m.specificity g = t.specificity := fun ht hg =>
    ⟨accepts_eq (hD ht hg), specificity_eq (hD ht hg)⟩
  have hcand : ∀ t, t ∈ candidates name args ↔ t ∈ signatures ∧ t.name = name ∧ t.accepts args := by
    intro t
    rw [candidates, List.mem_filter, List.mem_filter, and_assoc, decide_eq_true_iff]
  have hacc : m.accepts f args := (List.find?_eq_some_iff_append.mp hfind).1
  refine ⟨s, hf, (hcand s).mpr ⟨hmem, hname, (hspec hmem hf).1 ▸ hacc⟩, fun t ht => ?_⟩
  have ⟨ht, htname, htacc⟩ := (hcand t).mp ht
  have ⟨g, hg, hgt⟩ := hdeclared t ht htname
  rw [← (hspec hmem hf).2, ← (hspec ht hgt).2]
  exact hsorted.precedes h hg ((hspec ht hgt).1 ▸ htacc)

theorem Model.Builtin.accepts_eq (hs : ∀ t ∈ s.params, t.Known) (hf : m.Builtin f s) :
    m.accepts f args = s.accepts args :=
  Model.accepts_eq (hf.paramTys hs)

theorem Model.Standard.chosen (hm : m.Standard) (hsorted : m.Sorted) (h : m.matchOverload? name args = some f) :
    ∃ s, m.Builtin f s ∧ Chosen name args s :=
  hsorted.chosen (fun ht hf => hf.paramTys (known_signatures _ ht).1) (hm.builtin name)
    (fun s hs hn => hn ▸ hm.declared s hs) h

theorem Model.typeVar_eq_some {t : TypeInstId} {v : String} :
    m.typeVar? t = some v ↔ ∃ e, (m.typeInst t).domain = some e ∧ m.kind e = .typeVar v := by
  rw [typeVar?, Option.bind_eq_some_iff]
  refine exists_congr fun e => and_congr_right fun _ => ?_
  cases m.kind e <;> simp

section Sorting

theorem lookup_map_snd (l : List (String × List FuncId)) (h : String → List FuncId → List FuncId) (name : String) :
    (l.map fun (n, fs) => (n, h n fs)).lookup name = (l.lookup name).map (h name) := by
  induction l with
  | nil => rfl
  | cons p l ih =>
    by_cases hn : name == p.1
    · simp [List.lookup, eq_of_beq hn]
    · simp [List.lookup, hn, ih]

theorem overloadsOf_sortOverloads (m : Model) (name : String) :
    m.sortOverloads.overloadsOf? name = (m.overloadsOf? name).map m.sortBySpecificity :=
  lookup_map_snd m.overloads (fun _ => m.sortBySpecificity) name

theorem mem_sortBySpecificity {f : FuncId} {gs : List FuncId} : f ∈ m.sortBySpecificity gs ↔ f ∈ gs := by
  simp only [sortBySpecificity, List.mem_map, List.mem_mergeSort]
  simp

theorem overload_sorted_iff : m.sortOverloads.Overload name f ↔ m.Overload name f := by
  simp only [Overload, overloadsOf_sortOverloads, Option.map_eq_some_iff, ← exists_and_right]
  rw [exists_comm]
  simp [mem_sortBySpecificity]

theorem registered_of_sorted (h : m.sortOverloads.Registered f) : m.Registered f := by
  obtain ⟨name, gs, hmem, hf⟩ := h
  obtain ⟨⟨n, gs'⟩, hmem', heq⟩ := List.mem_map.mp hmem
  obtain ⟨rfl, rfl⟩ := Prod.mk.inj heq
  exact ⟨n, gs', hmem', mem_sortBySpecificity.mp hf⟩

theorem sorted_sortOverloads (m : Model) : m.sortOverloads.Sorted := by
  intro name fs hfs
  rw [overloadsOf_sortOverloads] at hfs
  obtain ⟨gs, _, rfl⟩ := Option.map_eq_some_iff.mp hfs
  have hsort : ((gs.map fun f => (m.specificity f, f)).mergeSort fun a b => Precedes a.1 b.1).Pairwise
      fun a b => decide (Precedes a.1 b.1) := by
    apply List.pairwise_mergeSort
    · intro a b c hab hbc
      simp only [decide_eq_true_eq] at hab hbc ⊢
      exact List.le_trans hab hbc
    · intro a b
      simpa using List.le_total a.1 b.1
  refine List.pairwise_map.mpr (hsort.imp_of_mem fun {a b} ha hb hab => ?_)
  have hkey : ∀ x ∈ (gs.map fun f => (m.specificity f, f)).mergeSort (fun a b => Precedes a.1 b.1),
      x.1 = m.specificity x.2 := by
    intro x hx
    obtain ⟨f, _, rfl⟩ := List.mem_map.mp (List.mem_mergeSort.mp hx)
    rfl
  rw [← show m.specificity = m.sortOverloads.specificity from rfl, ← hkey a ha, ← hkey b hb]
  simpa using hab

end Sorting

section Growth

variable (hm : m.Extends m₁)

include hm

theorem Model.Written.mono {t : TypeInstId} {ty : Ty} (h : m.Written t ty) (ht : ty.Known) : m₁.Written t ty := by
  have hlt : t.index < m.typeInsts.size := by
    by_contra hn
    rw [← h.ty_eq, typeInst, Array.getElem?_eq_none (Nat.le_of_not_lt hn)] at ht
    exact ht rfl
  exact ⟨by rw [hm.typeInst_eq hlt, h.ty_eq], by rw [hm.typeInst_eq hlt]; exact h.domain⟩

theorem Model.kind_typeVar_mono {e : ExprId} {v : String} (h : m.kind e = .typeVar v) : m₁.kind e = .typeVar v := by
  have he : e.index < m.exprs.size := by
    by_contra hn
    rw [kind, expr, Array.getElem?_eq_none (Nat.le_of_not_lt hn)] at h
    cases h
  rw [kind, hm.expr_eq he]
  exact h

theorem Model.typeVar_mono {t : TypeInstId} {v : String} (h : m.typeVar? t = some v) : m₁.typeVar? t = some v := by
  rw [typeVar_eq_some] at h ⊢
  obtain ⟨e, hd, hk⟩ := h
  have ht : t.index < m.typeInsts.size := by
    by_contra hn
    rw [typeInst, Array.getElem?_eq_none (Nat.le_of_not_lt hn)] at hd
    cases hd
  exact ⟨e, by rw [hm.typeInst_eq ht, hd], kind_typeVar_mono hm hk⟩

theorem Model.Spelled.mono {p : DeclId} {ty : Ty} (h : m.Spelled p ty) (ht : ty.Known) : m₁.Spelled p ty := by
  have hlt : p.index < m.decls.size := by
    by_contra hn
    rw [← h.ty_eq, decl_of_le (Nat.le_of_not_lt hn)] at ht
    exact ht rfl
  have heq := hm.decl_eq hlt
  exact ⟨⟨heq ▸ h.ty_eq, heq ▸ h.written.mono hm ht⟩, fun htop => heq ▸ typeVar_mono hm (h.var htop)⟩

theorem Model.Verbatim.mono (h : m.Verbatim f s) (hp : ∀ t ∈ s.params, t.Known) (hr : s.ret.Known) :
    m₁.Verbatim f s := by
  have heq := hm.func_eq h.present
  refine ⟨Nat.lt_of_lt_of_le h.present (by simpa using hm.funcs.length_le), heq ▸ h.name, heq ▸ h.body, ?_,
    heq ▸ h.ret.mono hm hr, fun htop => heq ▸ typeVar_mono hm (h.retVar htop)⟩
  rw [heq]
  have hparams := h.params
  generalize (m.func f).params = ps, s.params = ts at hparams hp
  induction hparams with
  | nil => exact .nil
  | cons h _ ih =>
    exact .cons (h.mono hm (hp _ List.mem_cons_self)) (ih fun t ht => hp t (List.mem_cons_of_mem _ ht))

end Growth

-- A step on top of `w` that adds no overloads. What it returns is described by `Q`.
def Builds (w : Model) (x : Build α) (Q : α → Model → Prop) : Prop :=
  ∀ m, w.Extends m → m.Extends (x m).2 ∧ (x m).2.overloads = m.overloads ∧ Q (x m).1 (x m).2

namespace Builds

section Rules

variable {P : α → Model → Prop} {Q : β → Model → Prop}

theorem pure {a : α} (h : ∀ w', w.Extends w' → P a w') : Builds w (pure a : Build α) P :=
  fun m hw => ⟨.refl m, rfl, h m hw⟩

theorem bind {x : Build α} {f : α → Build β} (hx : Builds w x P)
    (hf : ∀ a w', w.Extends w' → P a w' → Builds w' (f a) Q) : Builds w (x >>= f) Q := by
  intro m hw
  have ⟨h₁, ho₁, hp⟩ := hx m hw
  have ⟨h₂, ho₂, hq⟩ := hf _ _ (hw.trans h₁) hp _ (.refl _)
  exact ⟨h₁.trans h₂, ho₂.trans ho₁, hq⟩

theorem mapM {R : α → β → Model → Prop} {f : α → Build β} {as : List α}
    (hR : ∀ a b w₁ w₂, w₁.Extends w₂ → R a b w₁ → R a b w₂)
    (hf : ∀ a ∈ as, ∀ w', w.Extends w' → Builds w' (f a) (R a)) :
    Builds w (as.mapM f) fun bs w' => List.Forall₂ (R · · w') as bs := by
  induction as generalizing w with
  | nil => exact pure fun _ _ => .nil
  | cons a as ih =>
    rw [List.mapM_cons]
    refine bind (hf a List.mem_cons_self w (.refl w)) fun b w₁ h₁ hb => ?_
    refine bind (ih fun b hb w₂ h₂ => hf b (List.mem_cons_of_mem _ hb) w₂ (h₁.trans h₂)) fun bs w₂ h₂ hbs => ?_
    exact pure fun w₃ h₃ => .cons (hR a b _ _ (h₂.trans h₃) hb) (hbs.imp fun c d => hR c d _ _ h₃)

end Rules

theorem libraryTypeInst (t : Ty) : Builds w (Library.typeInst t) fun ti m =>
    m.Written ti t ∧ (t.base = .top → m.typeVar? ti = some "T") := by
  have hadd : ∀ {w'} x, Builds w' (Model.addTypeInst · x) fun _ _ => True := fun x m _ =>
    ⟨Extending.addTypeInst x m, rfl, trivial⟩
  have hvar : ∀ {w'} name, Builds w' (Build.typeVar name) fun e m => m.kind e = .typeVar name := fun name m _ =>
    ⟨Extending.addExpr _ m, rfl, by simp [Build.typeVar, Build.expr, Model.addExpr, kind, expr]⟩
  have hranges : Builds w (Library.ranges t) fun _ _ => True := by
    rw [Library.ranges]
    split
    · refine bind (P := fun _ _ => True) (bind (hvar "_") fun _ _ _ _ => hadd _) fun _ _ _ _ => ?_
      exact pure fun _ _ => trivial
    · refine fun m hw => ?_
      have hall : Builds w ((List.range t.dim.toNat).mapM fun _ => Build.indexInt) fun _ _ => _ :=
        mapM (R := fun _ _ _ => True) (fun _ _ _ _ _ _ => trivial) fun _ _ _ _ => hadd _
      obtain ⟨h, ho, _⟩ := hall m hw
      exact ⟨h, ho, trivial⟩
  have hdomain : ∀ w', Builds w' (Library.domain t) fun d w'' => (t.base ≠ .top → d = none) ∧
      (t.base = .top → ∃ e, d = some e ∧ w''.kind e = .typeVar "T") := by
    intro w'
    rw [Library.domain]
    split
    · next htop =>
      refine bind (hvar "T") fun e w₁ _ he => pure fun w₂ h₂ => ⟨fun hne => absurd htop hne, fun _ => ⟨e, rfl, ?_⟩⟩
      exact kind_typeVar_mono h₂ he
    · next htop => exact pure fun _ _ => ⟨fun _ => rfl, fun h => absurd h htop⟩
  refine bind hranges fun rs w₁ _ _ => bind (hdomain w₁) fun d w₂ _ hd m hw => ?_
  let x : TypeInst := { ty := t, ranges := rs, domain := d }
  have heq : (m.addTypeInst x).2.typeInst (m.addTypeInst x).1 = x := by simp [Model.addTypeInst, Model.typeInst]
  refine ⟨Extending.addTypeInst x m, rfl, ⟨congrArg TypeInst.ty heq, (congrArg TypeInst.domain heq).trans ∘ hd.1⟩,
    fun htop => ?_⟩
  obtain ⟨e, rfl, he⟩ := hd.2 htop
  exact typeVar_eq_some.mpr ⟨e, congrArg TypeInst.domain heq, kind_typeVar_mono hw he⟩

theorem param {t : Ty} (ht : t.Known) (i : Nat) : Builds w (Library.param t i) fun p m => m.Spelled p t := by
  refine bind (libraryTypeInst t) fun ti w₁ _ hti m hw => ?_
  let x : Decl := { name := "x" ++ toString i, ti, ty := t }
  have hext : m.Extends (m.addDecl x).2 := Extending.addDecl x m
  have heq : (m.addDecl x).2.decl (m.addDecl x).1 = x := by simp [Model.addDecl, decl]
  have hw := hw.trans hext
  exact ⟨hext, rfl, ⟨by rw [heq], by rw [heq]; exact hti.1.mono hw ht⟩,
    fun htop => by rw [heq]; exact typeVar_mono hw (hti.2 htop)⟩

end Builds

section Library

theorem overload_register {f g : FuncId} :
    (m.register f).Overload name g ↔ m.Overload name g ∨ name = (m.func f).name ∧ g = f := by
  simp only [Overload, register]
  by_cases hname : name = (m.func f).name
  · subst hname
    cases hfs : m.overloadsOf? (m.func f).name with
    | none =>
      have hnone : m.overloads.lookup (m.func f).name = none := hfs
      simp [overloadsOf?, List.lookup_append, hnone, List.lookup]
    | some fs =>
      simp only
      split
      · next hmem =>
        simp only [hfs, Option.some.injEq, exists_eq_left', true_and]
        exact ⟨.inl, fun h => h.elim id fun h => h ▸ hmem⟩
      · have hlook := lookup_map_snd m.overloads (fun n gs => if n = (m.func f).name then gs ++ [f] else gs)
          (m.func f).name
        have hsome : m.overloads.lookup (m.func f).name = some fs := hfs
        simp [overloadsOf?, hlook, hsome]
  · have hne : (name == (m.func f).name) = false := by simpa using hname
    simp only [hname, false_and, or_false]
    cases hfs : m.overloadsOf? (m.func f).name with
    | none => simp [overloadsOf?, List.lookup_append, List.lookup, hne]
    | some fs =>
      simp only
      split
      · rfl
      · have hlook := lookup_map_snd m.overloads (fun n gs => if n = (m.func f).name then gs ++ [f] else gs) name
        simp [overloadsOf?, hlook, hname]

-- One more signature is added by its declaration.
theorem Model.Provides.declare {ss : List Signature} (hm : m.Provides m₀ ss)
    (hk : ∀ t ∈ ss ++ [s], (∀ p ∈ t.params, p.Known) ∧ t.ret.Known) :
    (Library.declare s m).2.Provides m₀ (ss ++ [s]) := by
  obtain ⟨hparams, hret⟩ := hk s (by simp)
  have hmapM : Builds m (s.params.zipIdx.mapM fun q => Library.param q.1 q.2) fun ps w =>
      List.Forall₂ (fun q p => q.1.Known ∧ w.Spelled p q.1) s.params.zipIdx ps := by
    refine .mapM (fun a p w₁ w₂ hw h => ⟨h.1, h.2.mono hw h.1⟩) fun q ht w' _ m hw => ?_
    have hk := hparams q.1 (List.fst_mem_of_mem_zipIdx ht)
    obtain ⟨h, ho, hp⟩ := Builds.param hk q.2 m hw
    exact ⟨h, ho, hk, hp⟩
  obtain ⟨h₁, ho₁, hps⟩ := hmapM m (.refl m)
  generalize hx₁ : (s.params.zipIdx.mapM fun q => Library.param q.1 q.2) m = x₁ at h₁ ho₁ hps
  obtain ⟨ps, m₁⟩ := x₁
  obtain ⟨h₂, ho₂, hwritten, hvar⟩ := Builds.libraryTypeInst (w := m₁) s.ret m₁ (.refl m₁)
  generalize hx₂ : Library.typeInst s.ret m₁ = x₂ at h₂ ho₂ hwritten hvar
  obtain ⟨ret, m₂⟩ := x₂
  let x : Func := { name := s.name, params := ps, ret }
  let f := (m₂.addFunc x).1
  let w := (m₂.addFunc x).2.register f
  have hw : (Library.declare s m).2 = w := by
    simp only [Library.declare, bind, StateT.bind, hx₁, hx₂]
    rfl
  have hfunc : w.func f = x := by
    obtain ⟨os, hr⟩ := Resolve.register_eq (m₂.addFunc x).2 f
    simp [w, hr, f, Model.addFunc, func]
  have hext₂ : m₂.Extends w := (Extending.addFunc x m₂).trans (Extending.register _ _)
  have hext : m.Extends w := h₁.trans (h₂.trans hext₂)
  have hoverload : ∀ name g, w.Overload name g ↔ m.Overload name g ∨ name = s.name ∧ g = f := by
    intro name g
    have hold : (m₂.addFunc x).2.Overload name g ↔ m.Overload name g := by
      have ho : (m₂.addFunc x).2.overloads = m.overloads := ho₂.trans ho₁
      simp [Overload, overloadsOf?, ho]
    have hx : (m₂.addFunc x).2.func f = x := by simp [f, Model.addFunc, func]
    rw [overload_register, hold, hx]
  have hf : w.Verbatim f s := by
    refine ⟨?_, by rw [hfunc], by rw [hfunc], ?_, ?_, ?_⟩
    · obtain ⟨os, hr⟩ := Resolve.register_eq (m₂.addFunc x).2 f
      simp [w, hr, f, Model.addFunc]
    · rw [hfunc, ← List.zipIdx_map_fst 0 s.params, List.forall₂_map_right_iff]
      exact (hps.imp fun a p h => h.2.mono (h₂.trans hext₂) h.1).flip
    · rw [hfunc]
      exact hwritten.mono hext₂ hret
    · rw [hfunc]
      exact fun htop => typeVar_mono hext₂ (hvar htop)
  have hmono : ∀ t ∈ ss, ∀ g, m.Verbatim g t → w.Verbatim g t := by
    intro t ht g hg
    obtain ⟨hp, hr⟩ := hk t (List.mem_append_left _ ht)
    exact hg.mono hext hp hr
  rw [hw]
  refine ⟨fun name g hg => ?_, fun t ht => ?_⟩
  · cases (hoverload name g).mp hg
    case inl hg =>
      refine (hm.found name g hg).imp_right ?_
      rintro ⟨t, ht, hn, hb⟩
      exact ⟨t, List.mem_append_left _ ht, hn, hmono t ht g hb⟩
    case inr hg => exact .inr ⟨s, by simp, hg.1.symm, hg.2 ▸ hf⟩
  · cases List.mem_append.mp ht
    case inl ht =>
      obtain ⟨g, hg, hb⟩ := hm.declared t ht
      exact ⟨g, (hoverload _ g).mpr (.inl hg), hmono t ht g hb⟩
    case inr ht =>
      cases List.mem_singleton.mp ht
      exact ⟨f, (hoverload _ f).mpr (.inr ⟨rfl, rfl⟩), hf⟩

theorem provides_declare {ss : List Signature} (hk : ∀ s ∈ ss, (∀ t ∈ s.params, t.Known) ∧ s.ret.Known) :
    (ss.forM Library.declare m).2.Provides m ss := by
  have hall : ∀ ss₁ ss₂ (m' : Model), ss₁ ++ ss₂ = ss → m'.Provides m ss₁ →
      (ss₂.forM Library.declare m').2.Provides m ss := by
    intro ss₁ ss₂
    induction ss₂ generalizing ss₁ with
    | nil =>
      intro m' hss hm
      rw [List.append_nil] at hss
      exact hss ▸ hm
    | cons s ss₂ ih =>
      intro m' hss hm
      have hss : (ss₁ ++ [s]) ++ ss₂ = ss := by simpa using hss
      exact ih (ss₁ ++ [s]) _ hss (hm.declare fun t ht => hk t (hss ▸ List.mem_append_left _ ht))
  exact hall [] ss m rfl ⟨fun _ _ => .inl, by simp⟩

theorem provides_withLibrary (h : m.overloadsOf? "int2float" = none) : m.withLibrary.Provides m signatures := by
  rw [withLibrary, if_neg (by simp [h])]
  exact provides_declare known_signatures

theorem standard_withLibrary (h : m.overloads = []) : m.withLibrary.Standard := by
  have hprov : m.withLibrary.Provides m signatures := provides_withLibrary (by simp [overloadsOf?, h])
  refine ⟨fun name f hf => ?_, fun s hs => ?_⟩
  · rcases hprov.found name f hf with ⟨fs, hfs, _⟩ | ⟨s, hs, hn, hb⟩
    · simp [overloadsOf?, h] at hfs
    · exact ⟨s, hs, hn, hb.builtin⟩
  · obtain ⟨f, hf, hb⟩ := hprov.declared s hs
    exact ⟨f, hf, hb.builtin⟩

end Library

end Parvar
