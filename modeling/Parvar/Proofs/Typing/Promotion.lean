import Parvar.Proofs.Typing.Completion
import Parvar.Proofs.Typing.Fit
import Parvar.Proofs.Typing.Standard

/-!
Coercion with the builtins of the library. A coercion adds one call at most, of a function that takes its
argument as it is.
-/

namespace Parvar

open Model Library

namespace Library

-- The functions that coercion calls.
def coercions : List String := ["set2array", "bool2int", "bool2float", "int2float"]

-- The scalar types of some base.
def scalar (inst : Inst) (base : Base) : Ty := .of inst base false 0

variable {b c : Base} {name : String} (h : widening? b c = some name)

include h

theorem coercions_of_widening : name ∈ coercions := by
  cases b <;> cases c <;> cases h <;> decide

theorem sub_of_widening : b.sub c ∧ b ≠ c := by
  cases b <;> cases c <;> cases h <;> decide

theorem filter_widening : signatures.filter (·.name = name) =
    [⟨name, [scalar .par b], scalar .par c⟩, ⟨name, [scalar .var b], scalar .var c⟩] := by
  cases b <;> cases c <;> cases h <;> rfl

theorem sub_scalar_iff {a : Ty} (ha : a.base = b) (inst : Inst) :
    a.sub (scalar inst b) ↔ a.isOpt = false ∧ (a.isPar ∨ inst = .var) ∧ a.dim = 0 ∧ a.isSet = false := by
  have hb : b ≠ .bot ∧ b ≠ .unknown ∧ b ≠ .top := by cases b <;> cases c <;> cases h <;> decide
  rw [Ty.sub_iff (ha ▸ hb.1) hb.1]
  cases inst <;> simp [scalar, Ty.of, ha, Base.sub_self, hb.2.2, Ty.isVar]

-- Of the two that widen a number, the one for fixed values is chosen where it can be.
theorem chosen_widening {a : Ty} {s : Signature} (ha : a.base = b) (hs : Chosen name [a] s) :
    s.params = [scalar a.inst b] ∧ s.ret = scalar a.inst c ∧ a.isPlain := by
  have hsub := sub_scalar_iff h ha
  have hacc : ∀ inst, (⟨name, [scalar inst b], scalar inst c⟩ : Signature).accepts [a] = a.sub (scalar inst b) := by
    intro inst
    simp [Signature.accepts]
  obtain ⟨hmem, hleast⟩ := hs
  simp only [candidates, filter_widening h, List.mem_filter] at hmem hleast
  obtain ⟨hmem, hfits⟩ := hmem
  simp only [List.mem_cons, List.not_mem_nil, or_false] at hmem
  have hplain : ∀ inst, a.sub (scalar inst b) → a.isPlain := by
    intro inst h
    obtain ⟨ho, _, hd, hset⟩ := (hsub inst).mp h
    simp [Ty.isPlain, ho, hd, hset]
  obtain rfl | rfl := hmem
  · rw [hacc] at hfits
    have hpar : a.inst = .par := by
      have h := ((hsub _).mp hfits).2.1
      simpa [Ty.isPar] using h
    exact ⟨by rw [hpar], by rw [hpar], hplain _ hfits⟩
  · rw [hacc] at hfits
    have hvar : a.inst = .var := by
      by_contra hne
      have hpar : a.isPar := by
        have : a.inst = .par := by cases h : a.inst <;> simp_all
        simp [Ty.isPar, this]
      have hfits' : a.sub (scalar .par b) := (hsub _).mpr ((hsub _).mp hfits |>.imp_right (·.imp_left fun _ => .inl hpar))
      have hle := hleast ⟨name, [scalar .par b], scalar .par c⟩ ⟨by simp, by rw [hacc]; exact hfits'⟩
      revert hle
      cases b <;> cases c <;> cases h <;> decide
    exact ⟨by rw [hvar], by rw [hvar], hplain _ hfits⟩

omit h

-- What can be made an array: a fixed set, or what has no elements.
theorem sub_set_iff {a : Ty} : a.sub (Ty.top.withSet true) ↔
    a.dim = 0 ∧ a.isPar ∧ a.isOpt = false ∧ (a.isSet ∨ a.base = .bot) := by
  obtain ⟨inst, base, isSet, isOpt, cv, dim, hcv⟩ := a
  simp only [Ty.sub, Ty.setAsArray, Ty.dimFits, Ty.elemSub, Ty.instFits, Ty.optFits, Ty.isPar, Ty.isVar, Ty.top, Ty.of,
    Ty.withSet]
  by_cases hdim : dim = 0 <;> cases inst <;> cases isSet <;> cases isOpt <;> cases base <;> simp [Base.sub, hdim]

-- The function that makes an array of a set.
def listing : Signature := ⟨"set2array", [Ty.top.withSet true], Ty.top.withDim 1⟩

theorem filter_listing : signatures.filter (·.name = "set2array") = [listing] := by
  rfl

theorem chosen_listing {a : Ty} {s : Signature} (hs : Chosen "set2array" [a] s) :
    s = listing ∧ a.sub (Ty.top.withSet true) := by
  obtain ⟨hmem, -⟩ := hs
  simp only [candidates, filter_listing, List.mem_filter, List.mem_singleton] at hmem
  obtain ⟨rfl, hfits⟩ := hmem
  exact ⟨rfl, by simpa [Signature.accepts, listing] using hfits⟩

end Library

section Heads

namespace Model

-- A function as the library declares it: types of any base are written with the type variable `T`.
structure Declares (m : Model) (f : FuncId) (s : Signature) : Prop where
  params : (m.func f).params.map m.paramTy = s.params
  vars : ∀ p ∈ (m.func f).params, m.typeVar? (m.decl p).ti = if (m.paramTy p).base = .top then some "T" else none
  ret : (m.typeInst (m.func f).ret).ty = s.ret
  var : m.typeVar? (m.func f).ret = if s.ret.base = .top then some "T" else none

-- The functions that coercion calls are those of the library.
structure Promotes (m : Model) : Prop where
  sorted : m.Sorted
  found : ∀ name ∈ coercions, ∀ f, m.Overload name f → ∃ s ∈ signatures, s.name = name ∧ m.Declares f s
  declared : ∀ s ∈ signatures, s.name ∈ coercions → ∃ f, m.Overload s.name f ∧ m.Declares f s

-- The functions that can be called are declared alike.
structure SameHeads (m m' : Model) : Prop where
  overloads : m'.overloads = m.overloads
  funcs : m'.funcs = m.funcs
  params : ∀ f, m.Registered f → ∀ p ∈ (m.func f).params,
    m'.paramTy p = m.paramTy p ∧ m'.typeVar? (m'.decl p).ti = m.typeVar? (m.decl p).ti
  ret : ∀ f, m.Registered f → (m'.typeInst (m.func f).ret).ty = (m.typeInst (m.func f).ret).ty ∧
    m'.typeVar? (m.func f).ret = m.typeVar? (m.func f).ret

theorem Overload.registered {m : Model} {name : String} {f : FuncId} : m.Overload name f → m.Registered f :=
  fun ⟨fs, hfs, hf⟩ =>
    have ⟨_, _, hl, _⟩ := List.lookup_eq_some_iff.mp hfs
    ⟨name, fs, by simp [hl], hf⟩

section Library

variable {m : Model} {f : FuncId} {s : Signature}

theorem Verbatim.declares (h : m.Verbatim f s) (hs : ∀ t ∈ s.params, t.Known) : m.Declares f s where
  params := h.builtin.paramTys hs
  vars p hp := by
    obtain ⟨i, hi, rfl⟩ := List.getElem_of_mem hp
    have hj : i < s.params.length := h.params.length_eq ▸ hi
    have hspelled := List.forall₂_iff_get.mp h.params |>.2 i hi hj
    simp only [List.get_eq_getElem] at hspelled
    rw [hspelled.paramTy_eq (hs _ (List.getElem_mem hj))]
    split
    · next htop => exact hspelled.var htop
    · next htop => exact hspelled.written.typeVar_eq_none htop
  ret := h.ret.ty_eq
  var := by
    split
    · next htop => exact h.retVar htop
    · next htop => exact h.ret.typeVar_eq_none htop

-- A model gets its coercions from a library, unless it brings functions of their names.
theorem Provides.promotes {m₀ : Model} {ss : List Signature} (h : m.Provides m₀ ss) (hss : ss ⊆ signatures)
    (hall : ∀ s ∈ signatures, s.name ∈ coercions → s ∈ ss) (hnone : ∀ name ∈ coercions, m₀.overloadsOf? name = none) :
    m.sortOverloads.Promotes := by
  have hdeclares : ∀ {f s}, s ∈ ss → m.Verbatim f s → m.sortOverloads.Declares f s := by
    intro f s hs hf
    obtain ⟨hparams, hvars, hret, hvar⟩ := hf.declares (known_signatures s (hss hs)).1
    exact ⟨hparams, hvars, hret, hvar⟩
  refine ⟨sorted_sortOverloads m, fun name hn f hf => ?_, fun s hs hn => ?_⟩
  · rcases h.found name f (overload_sorted_iff.mp hf) with ⟨fs, hfs, _⟩ | ⟨s, hs, hname, hf⟩
    · rw [hnone name hn] at hfs
      cases hfs
    · exact ⟨s, hss hs, hname, hdeclares hs hf⟩
  · obtain ⟨f, hover, hf⟩ := h.declared s (hall s hs hn)
    exact ⟨f, overload_sorted_iff.mpr hover, hdeclares (hall s hs hn) hf⟩

theorem promotes_withLibrary (h : ∀ name ∈ coercions, m.overloadsOf? name = none) :
    m.withLibrary.sortOverloads.Promotes :=
  (provides_withLibrary (h _ (by decide))).promotes (fun _ hs => hs) (fun _ hs _ => hs) h

-- The part of the library that coercion needs.
def withCoercions (m : Model) : Model :=
  ((signatures.filter (·.name ∈ coercions)).forM Library.declare m).2.sortOverloads

theorem extends_sortOverloads (m : Model) : m.Extends m.sortOverloads :=
  ⟨rfl, rfl, List.prefix_rfl, List.prefix_rfl, List.prefix_rfl, List.prefix_rfl⟩

theorem extends_withCoercions (m : Model) : m.Extends m.withCoercions := by
  rw [withCoercions]
  generalize signatures.filter (·.name ∈ coercions) = ss
  exact (Extending.forM Extending.declare ss m).trans (extends_sortOverloads _)

theorem promotes_withCoercions (h : ∀ name ∈ coercions, m.overloadsOf? name = none) : m.withCoercions.Promotes := by
  have hmem : ∀ {s}, s ∈ signatures.filter (·.name ∈ coercions) ↔ s ∈ signatures ∧ s.name ∈ coercions := by
    intro s
    rw [List.mem_filter, decide_eq_true_iff]
  have hprov := provides_declare (m := m) fun s hs => known_signatures s (hmem.mp hs).1
  exact hprov.promotes (fun s hs => (hmem.mp hs).1) (fun s hs hn => hmem.mpr ⟨hs, hn⟩) h

end Library

namespace SameHeads

variable {m m' m'' : Model} {f : FuncId}

variable (h : m.SameHeads m')

include h

theorem func_eq (f : FuncId) : m'.func f = m.func f := by
  simp [func, h.funcs]

theorem registered_iff : m'.Registered f ↔ m.Registered f := by
  simp [Registered, h.overloads]

theorem overload_iff {name : String} : m'.Overload name f ↔ m.Overload name f := by
  simp [Overload, overloadsOf?, h.overloads]

theorem withBody_eq (fn : Option FuncId) : m'.withBody? fn = m.withBody? fn := by
  simp [withBody?, h.func_eq]

theorem trans (h' : m'.SameHeads m'') : m.SameHeads m'' where
  overloads := h'.overloads.trans h.overloads
  funcs := h'.funcs.trans h.funcs
  params f hf p hp := by
    have ⟨h₁, h₂⟩ := h.params f hf p hp
    have ⟨h₃, h₄⟩ := h'.params f (h.registered_iff.mpr hf) p (h.func_eq f ▸ hp)
    exact ⟨h₃.trans h₁, h₄.trans h₂⟩
  ret f hf := by
    have ⟨h₁, h₂⟩ := h.ret f hf
    have ⟨h₃, h₄⟩ := h'.ret f (h.registered_iff.mpr hf)
    rw [h.func_eq] at h₃ h₄
    exact ⟨h₃.trans h₁, h₄.trans h₂⟩

theorem symm : m'.SameHeads m where
  overloads := h.overloads.symm
  funcs := h.funcs.symm
  params f hf p hp := by
    have ⟨h₁, h₂⟩ := h.params f (h.registered_iff.mp hf) p (h.func_eq f ▸ hp)
    exact ⟨h₁.symm, h₂.symm⟩
  ret f hf := by
    have ⟨h₁, h₂⟩ := h.ret f (h.registered_iff.mp hf)
    rw [h.func_eq]
    exact ⟨h₁.symm, h₂.symm⟩

theorem paramTys_eq (hf : m.Registered f) : (m'.func f).params.map m'.paramTy = (m.func f).params.map m.paramTy := by
  rw [h.func_eq]
  exact List.map_congr_left fun p hp => (h.params f hf p hp).1

-- What is asked of a function by its parameters is asked of its signature.
theorem accepts_eq (hf : m.Registered f) (args : List Ty) : m'.accepts f args = m.accepts f args :=
  let s : Signature := ⟨(m.func f).name, (m.func f).params.map m.paramTy, .unknown⟩
  (Model.accepts_eq (s := s) (h.paramTys_eq hf)).trans (Model.accepts_eq (s := s) rfl).symm

theorem specificity_eq (hf : m.Registered f) : m'.specificity f = m.specificity f :=
  let s : Signature := ⟨(m.func f).name, (m.func f).params.map m.paramTy, .unknown⟩
  (Model.specificity_eq (s := s) (h.paramTys_eq hf)).trans (Model.specificity_eq (s := s) rfl).symm

theorem matchOverload_eq (name : String) (args : List Ty) : m'.matchOverload? name args = m.matchOverload? name args := by
  have hfs : m'.overloadsOf? name = m.overloadsOf? name := by rw [overloadsOf?, overloadsOf?, h.overloads]
  rw [matchOverload?, matchOverload?, hfs]
  cases hf : m.overloadsOf? name with
  | none => rfl
  | some fs => exact List.find?_congr fun f hmem => h.accepts_eq (Overload.registered ⟨fs, hf, hmem⟩) args

theorem argTys_eq (hf : m.Registered f) (args : List Ty) : m'.argTys f args = m.argTys f args := by
  rw [argTys, argTys, h.func_eq]
  refine List.map_congr_left fun (p, a) hp => ?_
  have ⟨h₁, h₂⟩ := h.params f hf p (List.of_mem_zip hp).1
  simp only [argTy, h₁, h₂]

theorem returnTy_eq (hf : m.Registered f) (args : List Ty) (span : Span) :
    m'.returnTy f args span = m.returnTy f args span := by
  have hb : m'.bindings f args = m.bindings f args := by
    rw [bindings, bindings, h.func_eq]
    refine List.foldl_ext _ _ _ fun b (p, a) hp => ?_
    obtain ⟨h₁, h₂⟩ := h.params f hf p (List.of_mem_zip hp).1
    simp only [Binding.add, h₁, h₂]
  obtain ⟨h₁, h₂⟩ := h.ret f hf
  simp only [returnTy, hb, h.func_eq, h₁, h₂]

theorem declares {s : Signature} (hf : m.Registered f) (hs : m.Declares f s) : m'.Declares f s where
  params := (h.paramTys_eq hf).trans hs.params
  vars p hp := by
    rw [h.func_eq] at hp
    have ⟨h₁, h₂⟩ := h.params f hf p hp
    rw [h₁, h₂]
    exact hs.vars p hp
  ret := by rw [h.func_eq, (h.ret f hf).1, hs.ret]
  var := by rw [h.func_eq, (h.ret f hf).2, hs.var]

theorem promotes (hm : m.Promotes) : m'.Promotes where
  sorted name fs hfs := by
    have hfs : m.overloadsOf? name = some fs := by rwa [overloadsOf?, h.overloads] at hfs
    refine (hm.sorted name fs hfs).imp_of_mem fun hf hg hle => ?_
    rwa [h.specificity_eq (Overload.registered ⟨fs, hfs, hf⟩), h.specificity_eq (Overload.registered ⟨fs, hfs, hg⟩)]
  found name hn f hf := by
    have hf := h.overload_iff.mp hf
    obtain ⟨s, hs, hname, hd⟩ := hm.found name hn f hf
    exact ⟨s, hs, hname, h.declares hf.registered hd⟩
  declared s hs hn := by
    obtain ⟨f, hf, hd⟩ := hm.declared s hs hn
    exact ⟨f, h.overload_iff.mpr hf, h.declares hf.registered hd⟩

end SameHeads
end Model
end Heads

section Coercion

variable {m m' : Model} {a a' : ExprId} {t : Ty} {f : FuncId} {name : String} {ty : Ty}

-- A call to `f` whose arguments are taken as they are, and its type.
structure Model.Applies (m : Model) (name : String) (args : List ExprId) (span : Span) (f : FuncId) (t : Ty) : Prop where
  chosen : m.matchOverload? name (args.map m.ty) = some f
  meets : List.Forall₂ (fun a t => (m.ty a).Meets t) args (m.argTys f (args.map m.ty))
  ret : ∃ u, m.returnTy f (args.map m.ty) span = .ok u ∧ t = u.withCv ((args.map m.ty).any (·.cv))

theorem Model.Applies.congr {args : List ExprId} {span : Span} (h : m.SameHeads m') (ht : ∀ a ∈ args, m'.ty a = m.ty a)
    (ha : m.Applies name args span f ty) : m'.Applies name args span f ty := by
  have hf : m.Registered f := by
    obtain ⟨fs, hfs, hfind⟩ := Option.bind_eq_some_iff.mp ha.chosen
    exact Overload.registered ⟨fs, hfs, List.mem_of_find?_eq_some hfind⟩
  have hmap : args.map m'.ty = args.map m.ty := List.map_congr_left ht
  constructor
  · rw [hmap, h.matchOverload_eq]
    exact ha.chosen
  · rw [hmap, h.argTys_eq hf]
    refine (List.forall₂_iff_get.mp ha.meets).elim fun hl hget => List.forall₂_iff_get.mpr ⟨hl, fun i hi hj => ?_⟩
    rw [ht _ (List.get_mem ..)]
    exact hget i hi hj
  · rw [hmap, h.returnTy_eq hf]
    exact ha.ret

-- The call that a coercion puts around an expression.
def Model.callOn (m : Model) (name : String) (f : FuncId) (a : ExprId) (ty : Ty) : Expr :=
  { kind := .call name [a] (some f), ty, span := m.spanOf a }

theorem Model.Promotes.chosen (hm : m.Promotes) (hn : name ∈ coercions) {args : List Ty}
    (h : m.matchOverload? name args = some f) : ∃ s, m.Declares f s ∧ Chosen name args s :=
  hm.sorted.chosen (fun _ hd => hd.params) (hm.found name hn) (fun s hs hname => hname ▸ hm.declared s hs (hname ▸ hn)) h

-- A function of one parameter.
theorem Model.Declares.param {s : Signature} {u : Ty} (h : m.Declares f s) (hs : s.params = [u]) :
    ∃ p, (m.func f).params = [p] ∧ m.paramTy p = u ∧
      m.typeVar? (m.decl p).ti = if u.base = .top then some "T" else none := by
  have hp := h.params.trans hs
  obtain ⟨p, hp', rfl⟩ := List.map_eq_singleton_iff.mp hp
  exact ⟨p, hp', rfl, h.vars p (by simp [hp'])⟩

theorem Library.scalar_withCv {u : Ty} {c : Base} (h : u.isPlain) : (scalar u.inst c).withCv u.cv = u.withBase c := by
  obtain ⟨inst, base, isSet, isOpt, cv, dim, hcv⟩ := u
  simp only [Ty.isPlain, Bool.and_eq_true, Bool.not_eq_true', decide_eq_true_eq] at h
  obtain ⟨⟨rfl, rfl⟩, rfl⟩ := h
  cases inst <;> simp_all [scalar, Ty.of, Ty.withCv, Ty.withBase]

theorem Library.instantiate_withCv {u : Ty} (hp : u.isPar) (ho : u.isOpt = false) :
    (instantiate (Ty.top.withDim 1) (u.elem.withSet false)).withCv u.cv = (u.withSet false).withDim 1 := by
  obtain ⟨inst, base, isSet, isOpt, cv, dim, hcv⟩ := u
  cases inst <;> simp_all [Ty.isPar, instantiate, Ty.top, Ty.of, Ty.withCv, Ty.withBase, Ty.withSet, Ty.withDim, Ty.elem]

section Returns

variable {s : Signature} {span : Span} {u : Ty} {c : Base}

theorem Model.Declares.returnTy_scalar {args : List Ty} {inst : Inst} (h : m.Declares f s)
    (hs : s.ret = scalar inst c) (hc : c ≠ .top) : m.returnTy f args span = .ok (scalar inst c) := by
  have hvar : m.typeVar? (m.func f).ret = none := by
    rw [h.var, hs, if_neg]
    exact hc
  simp only [returnTy, hvar, h.ret, hs]
  rfl

theorem Model.Declares.returnTy_listing (h : m.Declares f listing) :
    m.returnTy f [u] span = .ok (instantiate (Ty.top.withDim 1) (u.elem.withSet false)) := by
  obtain ⟨p, hp, hpty, hpvar⟩ := h.param rfl
  have hvar : m.typeVar? (m.func f).ret = some "T" := h.var
  have hpvar : m.typeVar? (m.decl p).ti = some "T" := hpvar
  have hbind : m.bindings f [u] = { vars := [("T", u.elem.withSet false)] } := by
    simp only [bindings, hp, List.zip_cons_cons, List.zip_nil_left, List.foldl_cons, List.foldl_nil, Binding.add, hpvar,
      hpty]
    rfl
  have hone : (instantiate (Ty.top.withDim 1) (u.elem.withSet false)).dim = 1 := by
    simp only [instantiate]
    split <;> split <;> rfl
  simp only [returnTy, hvar, h.ret, hbind]
  refine congrArg Except.ok (if_neg ?_)
  change (instantiate (Ty.top.withDim 1) (u.elem.withSet false)).dim ≠ -1
  rw [hone]
  decide

end Returns

theorem Library.widening_ne_top {b c : Base} (h : widening? b c = some name) : c ≠ .top := by
  cases b <;> cases c <;> cases h <;> decide

theorem Model.wrap_widening {c : Base} (hm : m.Promotes) (hw : widening? (m.ty a).base c = some name)
    (h : m.wrap name a = .ok (a', m')) : ∃ f, (m.ty a).isPlain ∧
      m.Applies name [a] (m.spanOf a) f ((m.ty a).withBase c) ∧
      m.addExpr (m.callOn name f a ((m.ty a).withBase c)) = (a', m') := by
  have ⟨f, ty, hmatch, hret, hadd⟩ := wrap_eq_ok h
  have ⟨s, hd, hs⟩ := hm.chosen (coercions_of_widening hw) hmatch
  have ⟨hparams, hsret, hplain⟩ := chosen_widening hw rfl hs
  have ⟨p, hp, hpty, hpvar⟩ := hd.param hparams
  have hty : ty = scalar (m.ty a).inst c :=
    Except.ok.inj (hret.symm.trans (hd.returnTy_scalar hsret (widening_ne_top hw)))
  have hcv : ty.withCv (m.ty a).cv = (m.ty a).withBase c := hty ▸ scalar_withCv hplain
  refine ⟨f, hplain, ⟨hmatch, ?_, ty, hret, by simp [hcv]⟩, hcv ▸ hadd⟩
  have hdim : (m.ty a).dim = 0 := by simp_all [Ty.isPlain]
  simp only [List.map_cons, List.map_nil, argTys, hp, List.zip_cons_cons, List.zip_nil_left]
  refine .cons ?_ .nil
  have htarget : m.argTy p (m.ty a) = Ty.target (m.typeVar? (m.decl p).ti).isSome (m.paramTy p) (m.ty a) := rfl
  rw [htarget, hpty]
  exact Ty.meets_target (.inr hdim) (.inr (.inr rfl))

theorem Model.wrap_listing (hm : m.Promotes) (h : m.wrap "set2array" a = .ok (a', m')) :
    ∃ f, (m.ty a).sub (Ty.top.withSet true) ∧
      m.Applies "set2array" [a] (m.spanOf a) f (((m.ty a).withSet false).withDim 1) ∧
      m.addExpr (m.callOn "set2array" f a (((m.ty a).withSet false).withDim 1)) = (a', m') := by
  have ⟨f, ty, hmatch, hret, hadd⟩ := wrap_eq_ok h
  have ⟨s, hd, hs⟩ := hm.chosen (by decide) hmatch
  obtain ⟨rfl, hsub⟩ := chosen_listing hs
  obtain ⟨hdim, hpar, hopt, -⟩ := sub_set_iff.mp hsub
  have ⟨p, hp, hpty, hpvar⟩ := hd.param rfl
  have hty : ty = instantiate (Ty.top.withDim 1) ((m.ty a).elem.withSet false) :=
    Except.ok.inj (hret.symm.trans hd.returnTy_listing)
  have hcv : ty.withCv (m.ty a).cv = ((m.ty a).withSet false).withDim 1 := hty ▸ instantiate_withCv hpar hopt
  refine ⟨f, hsub, ⟨hmatch, ?_, ty, hret, by simp [hcv]⟩, hcv ▸ hadd⟩
  simp only [List.map_cons, List.map_nil, argTys, hp, List.zip_cons_cons, List.zip_nil_left]
  refine .cons ?_ .nil
  have htarget : m.argTy p (m.ty a) = Ty.target (m.typeVar? (m.decl p).ti).isSome (m.paramTy p) (m.ty a) := rfl
  rw [htarget, hpty]
  exact Ty.meets_target (.inr hdim) (.inr (.inl rfl))

-- Only the expressions are different, and none of them became a type variable or ceased to be one.
theorem Model.SameHeads.of_exprs (h : m' = { m with exprs := m'.exprs })
    (hk : ∀ e v, m'.kind e = .typeVar v ↔ m.kind e = .typeVar v) : m.SameHeads m' := by
  generalize m'.exprs = es at h
  subst h
  have hvar : ∀ t, Model.typeVar? { m with exprs := es } t = m.typeVar? t := fun t => Option.ext fun v => by
    rw [typeVar_eq_some, typeVar_eq_some]
    exact exists_congr fun e => and_congr_right fun _ => hk e v
  exact ⟨rfl, rfl, fun _ _ _ _ => ⟨rfl, hvar _⟩, fun _ _ => ⟨rfl, hvar _⟩⟩

theorem Model.SameHeads.addExpr (m : Model) {x : Expr} (hx : ∀ v, x.kind ≠ .typeVar v) :
    m.SameHeads (m.addExpr x).2 := by
  refine .of_exprs rfl fun e v => ?_
  obtain hs | ⟨hs, hnew⟩ := Model.expr_addExpr m x e
  · simp only [kind, hs]
  · simp only [kind, hs, hnew]
    exact ⟨fun h => absurd h (hx v), fun h => by cases h⟩

-- A coercion leaves an expression alone, or puts one call around it.
theorem Model.coerce_becomes (hm : m.Promotes) (ha : (m.ty a).Listable t) (h : m.coerce a t = .ok (a', m')) :
    (a' = a ∧ m' = m ∧ (m.ty a).Meets t) ∨
      ∃ name f b, ¬(m.ty a).Meets t ∧ (m.ty a).Becomes t b ∧ m.Applies name [a] (m.spanOf a) f b ∧
        m.addExpr (m.callOn name f a b) = (a', m') := by
  simp only [coerce] at h
  split at h
  · next hc =>
    cases h
    simp only [Bool.and_eq_true, Bool.or_eq_true, decide_eq_true_eq] at hc
    exact .inl ⟨rfl, rfl, .inl hc⟩
  · next hc =>
    simp only [Bool.and_eq_true, Bool.or_eq_true, decide_eq_true_eq] at hc
    obtain ⟨⟨a₁, m₁⟩, h₁, h⟩ := except_bind_eq_ok.mp h
    simp only [asArray] at h₁
    split at h₁
    · next hd =>
      simp only [Bool.and_eq_true, decide_eq_true_eq] at hd
      split at h₁
      · cases h₁
      · obtain ⟨f, hsub, happ, hadd⟩ := wrap_listing hm h₁
        obtain ⟨hz, hpar, hopt, hset⟩ := sub_set_iff.mp hsub
        have hset : (m.ty a).isSetTy := by simp [Ty.isSetTy, hz, hset.elim id (ha hd.1 hd.2)]
        have hty : m₁.ty a₁ = ((m.ty a).withSet false).withDim 1 := by
          have hnew := expr_addExpr_new m (m.callOn "set2array" f a (((m.ty a).withSet false).withDim 1))
          rw [hadd] at hnew
          rw [Model.ty, hnew, callOn]
        simp only [widen, hty] at h
        split at h
        · next hb =>
          cases h
          exact .inr ⟨_, f, _, fun h => h.elim hc fun h => h.1 hd, .listed hset hpar hopt hd.2 hb, happ, hadd⟩
        · split at h
          · next name hw =>
            have hm₁ : m₁.Promotes := by
              have h := SameHeads.addExpr m (x := m.callOn "set2array" f a (((m.ty a).withSet false).withDim 1))
                fun v hv => by cases hv
              rw [hadd] at h
              exact h.promotes hm
            obtain ⟨_, hplain, _⟩ := wrap_widening hm₁ (hty ▸ hw) h
            rw [hty] at hplain
            cases hplain
          · cases h
    · next hd =>
      cases h₁
      simp only [Bool.and_eq_true, decide_eq_true_eq] at hd
      simp only [widen] at h
      split at h
      · next hb =>
        cases h
        exact .inl ⟨rfl, rfl, .inr ⟨hd, hb⟩⟩
      · next hb =>
        split at h
        · next name hw =>
          obtain ⟨f, hplain, happ, hadd⟩ := wrap_widening hm hw h
          have hz : (m.ty a).dim = 0 := by simp_all [Ty.isPlain]
          obtain ⟨hsub, hne⟩ := sub_of_widening hw
          refine .inr ⟨name, f, _, ?_, .widened hplain ?_ hsub hne, happ, hadd⟩
          · exact fun h => h.elim hc fun h => hb h.2
          · by_contra hne
            exact hd ⟨hz, hne⟩
        · cases h

end Coercion
end Parvar
