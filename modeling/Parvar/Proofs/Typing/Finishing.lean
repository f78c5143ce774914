import Parvar.Proofs.Typing.Wrapping

/-!
The typing of single nodes. Once the parts of a node have been typed, the typing of the node itself leaves
it settled.
-/

namespace Parvar

open Model Typing

section Rules

variable {t u : Ty} {whole : Span} {xs : List Operand}

theorem Rules.dim_setElems (h : setElems whole xs = .ok t) : t.dim = 0 := by
  suffices hall : ∀ (xs : List Operand) (u : Ty), xs.foldlM (setElem whole) u = .ok t → t.dim = u.dim from hall xs _ h
  intro xs
  induction xs with
  | nil =>
    intro u h
    cases h
    rfl
  | cons x xs ih =>
    intro u h
    rw [List.foldlM_cons] at h
    obtain ⟨v, hv, h⟩ := except_bind_eq_ok.mp h
    have ⟨_, hv, _⟩ := setElem_eq_ok hv
    rw [ih v h, hv]
    simp only [setMarks, markedBy]
    split <;> split <;> rfl

theorem Rules.base_result (c : Conditional) : c.result.base = c.ty.base := by
  rw [Conditional.result]
  split <;> split <;> rfl

end Rules

section Setting

variable {m m' : Model} {e x : ExprId} {k : ExprKind} {t : Ty}

namespace Model

theorem expr_setNode_ne (h : x ≠ e) : (m.setNode e k t).expr x = m.expr x := by
  simp [expr_setNode, h]

theorem ty_setNode_ne (h : x ≠ e) : (m.setNode e k t).ty x = m.ty x := by
  rw [ty, expr_setNode_ne h, ty]

theorem kind_setNode_ne (h : x ≠ e) : (m.setNode e k t).kind x = m.kind x := by
  rw [kind, expr_setNode_ne h, kind]

theorem operand_setNode_ne (h : x ≠ e) : (m.setNode e k t).operand x = m.operand x := by
  rw [operand, expr_setNode_ne h, operand]

theorem expr_setNode_self (he : e.index < m.exprs.size) :
    (m.setNode e k t).expr e = { m.expr e with kind := k, ty := t } := by
  simp [expr_setNode, he]

theorem ty_setNode (he : e.index < m.exprs.size) : (m.setNode e k t).ty e = t := by
  rw [ty, expr_setNode_self he]

theorem kind_setNode (he : e.index < m.exprs.size) : (m.setNode e k t).kind e = k := by
  rw [kind, expr_setNode_self he]

theorem spanOf_setNode : (m.setNode e k t).spanOf x = m.spanOf x := by
  rw [spanOf, expr_setNode]
  split
  · next h => rw [h.1, spanOf]
  · rfl

theorem SameHeads.setNode (hk : ∀ v, k = .typeVar v ↔ m.kind e = .typeVar v) : m.SameHeads (m.setNode e k t) := by
  refine .of_exprs rfl fun x v => ?_
  rw [kind, expr_setNode]
  split
  · next h => rw [h.1]; exact hk v
  · rfl

end Model
end Setting

section Finishing

-- The kinds of expressions that typing makes.
def ExprKind.isMade : ExprKind → Bool
  | .setLit _ | .arrayLit _ _ | .access _ _ | .ite _ _ | .bin _ _ _ _ | .un _ _ _ | .call _ _ _ | .letIn _ => true
  | _ => false

namespace Model

-- Parameters and return types are of values, and there are no arrays of a fixed number of dimensions but one.
structure Regular (m : Model) : Prop where
  params : ∀ {f p}, m.Registered f → p ∈ (m.func f).params → (m.paramTy p).base ≠ .bot ∧ (m.paramTy p).Flat
  ret : ∀ {f}, m.Registered f → (m.typeInst (m.func f).ret).ty.Concrete

-- An expression that can be a part of `e`, and has been typed.
structure TypedPart (m : Model) (e a : ExprId) : Prop where
  present : a.index < m.exprs.size
  ne : a ≠ e
  concrete : (m.ty a).Concrete
  named : (m.kind a).isAnon = false

-- The parts of an expression have been typed.
structure Typeable (m : Model) (e : ExprId) : Prop where
  promotes : m.Promotes
  regular : m.Regular
  present : e.index < m.exprs.size
  part : ∀ {a}, .expr a ∈ (m.kind e).parts Generator.uses → m.TypedPart e a

-- The node as typing leaves it: some of its parts were wrapped, and it is settled.
structure Settles (m : Model) (e : ExprId) (m₁ : Model) (k : ExprKind) (t : Ty) : Prop where
  wraps : m.Wraps (fun a => .expr a ∈ (m.kind e).parts Generator.uses) m₁
  kind : k = m.kind e ∨ k.isMade ∧ (m.kind e).isMade
  parts : ∀ gen, ∀ c ∈ k.parts gen, c ∈ (m.kind e).parts gen ∨
    ∃ a, c = .expr a ∧ m.exprs.size ≤ a.index ∧ a.index < m₁.exprs.size
  concrete : t.Concrete
  named : k.isAnon = false
  settled : (m₁.setNode e k t).SettledAs e k

def Finishes (m : Model) (e : ExprId) (m' : Model) : Prop := ∃ m₁ k t, m' = m₁.setNode e k t ∧ m.Settles e m₁ k t

variable {m m' m₁ : Model} {e a a' : ExprId} {t u : Ty}

theorem Typeable.exprs (hm : m.Typeable e) (as : List ExprId) (has : (m.kind e).parts Generator.uses = as.map .expr) :
    ∀ a ∈ as, m.TypedPart e a :=
  fun _ ha => hm.part (has ▸ List.mem_map_of_mem ha)

-- What stands in for a part is not the node itself, and has the type that the part was turned into.
theorem Turned.ty_setNode {k : ExprKind} (h : m.Turned a t m₁ a') (he : e.index < m.exprs.size) (hne : a ≠ e) :
    a' ≠ e ∧ (m.ty a).Becomes t ((m₁.setNode e k u).ty a') := by
  have hne : a' ≠ e := by
    rintro rfl
    exact h.place.elim (fun h => hne h.symm) fun h => Nat.not_lt.mpr h.1 he
  refine ⟨hne, ?_⟩
  rw [ty_setNode_ne hne]
  exact h.becomes

-- What stands in for a part that is not anonymous is not anonymous.
theorem Turned.named {P : ExprId → Prop} (h : m.Turned a t m₁ a') (hw : m.Wraps P m₁) (ha : m.TypedPart e a) :
    (m₁.kind a').isAnon = false := by
  obtain rfl | ⟨hold, hnew⟩ := h.place
  · rw [hw.grows.kind_eq ha.present]
    exact ha.named
  · obtain ⟨b, name, f, u, -, hx, -⟩ := hw.added hold hnew
    rw [kind, hx]
    rfl

theorem Turned.mem_or_new {as : List ExprId} (h : m.Turned a t m₁ a') (ha : a ∈ as) :
    a' ∈ as ∨ m.exprs.size ≤ a'.index ∧ a'.index < m₁.exprs.size :=
  h.place.imp_left fun (h : a' = a) => h ▸ ha

-- The parts of the node are expressions, and each has been left alone or wrapped.
theorem Finishes.of_turned {k : ExprKind} {as as' : List ExprId} (hk : (m.kind e).isMade) (hk' : k.isMade)
    (has : ∀ gen, (m.kind e).parts gen = as.map .expr) (has' : ∀ gen, k.parts gen = as'.map .expr)
    (hw : m.Wraps (· ∈ as) m₁) (hplace : ∀ a' ∈ as', a' ∈ as ∨ m.exprs.size ≤ a'.index ∧ a'.index < m₁.exprs.size)
    (ht : t.Concrete) (hs : (m₁.setNode e k t).SettledAs e k) : m.Finishes e (m₁.setNode e k t) := by
  refine ⟨m₁, k, t, rfl, hw.mono fun a ha => ?_, .inr ⟨hk', hk⟩, fun gen c hc => ?_, ht, ?_, hs⟩
  · rw [has]
    exact List.mem_map_of_mem ha
  · rw [has'] at hc
    obtain ⟨a', ha', rfl⟩ := List.mem_map.mp hc
    rw [has]
    exact (hplace a' ha').imp List.mem_map_of_mem fun h => ⟨a', rfl, h⟩
  · cases k <;> first | rfl | cases hk'

theorem finishes_setLit {es : List ExprId} (hm : m.Typeable e) (hk : m.kind e = .setLit es) (hes : es ≠ [])
    (h : Runs (setLit e es) m ⟨⟩ m') : m.Finishes e m' := by
  have hop := hm.exprs es (by rw [hk]; rfl)
  obtain ⟨t, ht, h⟩ := Runs.ofExcept_bind h
  have hsub := Rules.sub_setElems ht (List.forall_mem_map.mpr fun a ha => (hop a ha).concrete)
  have hsub : ∀ a ∈ es, (m.ty a).base.sub t.base := fun a ha => hsub _ (List.mem_map_of_mem ha)
  obtain ⟨b, hb⟩ := List.exists_mem_of_ne_nil es hes
  have htc : t.Concrete := (hop b hb).concrete.mono (hsub b hb)
  rw [if_neg (Ty.known_iff.mp htc.known)] at h
  obtain ⟨u, hu, h⟩ := Runs.ofExcept_bind h
  obtain ⟨hut, htu, hagain⟩ := Rules.setLit_eq_ok hu
  have huc : u.Concrete := htc.mono htu
  obtain ⟨es', c, hc, h⟩ := bind_eq_ok.mp h
  obtain ⟨m₁, rfl, hw, hturned⟩ :=
    coerceEach_wraps hm.promotes (fun a ha => ⟨(hop a ha).present, (hop a ha).concrete.listable _⟩) hc
  obtain rfl : m' = m₁.setNode e (.setLit es') u := congrArg Checking.model (setKind_setTy_eq_ok h)
  have hall : List.Forall₂ (fun a a' => a' ≠ e ∧ (m.ty a).Becomes u ((m₁.setNode e (.setLit es') u).ty a') ∧
      (m.ty a).Concrete ∧ (m.ty a).base.sub u.base) es es' :=
    ((List.forall₂_and_left _ _).mpr ⟨fun a ha => And.intro (hop a ha) (hsub a ha), hturned⟩).imp <| by
      rintro a a' ⟨⟨ha, hs⟩, ht⟩
      obtain ⟨hne, hb⟩ := ht.ty_setNode hm.present ha.ne
      exact ⟨hne, hb, ha.concrete, Base.sub_trans hs htu⟩
  have he : e.index < m₁.exprs.size := Nat.lt_of_lt_of_le hm.present hw.grows.size_le
  refine .of_turned (hk ▸ rfl) rfl (fun _ => by rw [hk]; rfl) (fun _ => rfl) (by simpa using hw) ?_ huc ?_
  · intro a' ha'
    obtain ⟨a, ha, ht⟩ := forall₂_exists hturned.flip a' ha'
    exact ht.mem_or_new ha
  · have hwhole : List.Forall₂ (fun x x' => x'.ty = x.ty.withBase u.base) (es.map m.operand)
        (es'.map (m₁.setNode e (.setLit es') u).operand) := by
      rw [List.forall₂_map_left_iff, List.forall₂_map_right_iff]
      refine hall.imp fun a a' ⟨_, hb, hc, hs⟩ => hb.eq_withBase hc (fun _ => ?_) huc.not_bot hs
      rw [hut]
      exact Rules.dim_setElems (t := t) ht
    rw [SettledAs, ty_setNode he]
    refine ⟨⟨u, ?_, huc.known, hagain _⟩, fun a' ha' => ?_⟩
    · rw [Rules.setElems_widened (by simpa using hes) ht huc.known hwhole, ← hut]
    · obtain ⟨a, _, _, hb, _⟩ := forall₂_exists hall.flip a' ha'
      exact hb.meets

-- Elements of an array are not coerced: they are of the base of the array, or else sets, for which there is no coercion.
theorem finishes_arrayLit {es : List ExprId} {dims : List (Int64 × Int64)} (hm : m.Typeable e)
    (hk : m.kind e = .arrayLit es dims) (hes : es ≠ []) (h : Runs (arrayLit e es dims) m ⟨⟩ m') : m.Finishes e m' := by
  have hop := hm.exprs es (by rw [hk]; rfl)
  obtain ⟨t, ht, h⟩ := Runs.ofExcept_bind h
  have halike := Rules.arrayElems_alike ht (List.forall_mem_map.mpr fun a ha => ⟨(hop a ha).concrete, (hop a ha).named⟩)
  have halike : ∀ a ∈ es, (m.ty a).base = t.base ∧ (m.ty a).isSet = t.isSet := fun a ha =>
    (halike _ (List.mem_map_of_mem ha)).2
  obtain ⟨b, hb⟩ := List.exists_mem_of_ne_nil es hes
  have htc : t.Concrete := by
    have hbc := (hop b hb).concrete
    exact ⟨(halike b hb).1 ▸ hbc.not_bot, (halike b hb).1 ▸ hbc.known⟩
  rw [if_neg (Ty.known_iff.mp htc.known)] at h
  obtain ⟨u, hu, h⟩ := Runs.ofExcept_bind h
  have hanons : (es.map m.operand).filter (·.isAnon) = [] := by
    refine List.filter_eq_nil_iff.mpr (List.forall_mem_map.mpr fun a ha => ?_)
    exact Bool.eq_false_iff.mp (hop a ha).named
  obtain ⟨_, _, hnone, h⟩ := bind_eq_ok.mp h
  rw [hanons] at hnone
  obtain ⟨-, rfl⟩ := pure_eq_ok.mp hnone
  obtain ⟨es', c, hc, h⟩ := bind_eq_ok.mp h
  obtain rfl | ⟨hset, hbool, rfl⟩ := Rules.arrayLit_eq_ok hu
  · have hmeets : ∀ a ∈ es, (m.ty a).Meets u.elem := fun a ha =>
      .inr ⟨fun h => h.2 rfl, (Ty.baseAgrees_iff (hop a ha).concrete).mpr (.inr (halike a ha).1)⟩
    have hsame : Runs (es.mapM (CheckM.coerce · u.elem)) m es m :=
      .mapM (List.forall₂_same.mpr fun a ha => .coerce (hmeets a ha))
    obtain ⟨rfl, rfl⟩ : es' = es ∧ c = { model := m } := by
      cases hc.symm.trans hsame
      exact ⟨rfl, rfl⟩
    obtain rfl : m' = m.setNode e (.arrayLit es' dims) u := congrArg Checking.model (setKind_setTy_eq_ok h)
    have hmap : es'.map (m.setNode e (.arrayLit es' dims) u).operand = es'.map m.operand :=
      List.map_congr_left fun a ha => operand_setNode_ne (hop a ha).ne
    refine .of_turned (hk ▸ rfl) rfl (fun _ => by rw [hk]; rfl) (fun _ => rfl) (.refl _ _) (fun a ha => .inl ha) htc ?_
    rw [SettledAs, ty_setNode hm.present, hmap, spanOf_setNode]
    refine ⟨⟨u, ht, htc.known, hu⟩, fun a ha => ?_⟩
    rw [kind_setNode_ne (hop a ha).ne, ty_setNode_ne (hop a ha).ne]
    exact ⟨(hop a ha).named, hmeets a ha⟩
  · obtain ⟨m₁, -, -, hall⟩ :=
      coerceEach_wraps hm.promotes (fun a ha => ⟨(hop a ha).present, (hop a ha).concrete.listable _⟩) hc
    obtain ⟨b', _, hturned⟩ := forall₂_exists hall b hb
    obtain ⟨hbase, hbset⟩ := halike b hb
    have hturned := hturned.becomes
    generalize m₁.ty b' = v at hturned
    exfalso
    cases hturned with
    | same h =>
      have hagree : Model.baseAgrees (m.ty b) (t.withBase .int).elem :=
        h.elim (fun h => h.2.resolve_left (by simp [Ty.elem, Ty.withBase, Ty.withDim])) And.right
      rw [Ty.baseAgrees_iff (hop b hb).concrete, hbase, hbool] at hagree
      simp [Ty.elem, Ty.withBase, Ty.withDim] at hagree
    | listed _ _ _ hdim => exact hdim rfl
    | widened hplain => simp [Ty.isPlain, hbset, hset] at hplain

section Calls

variable {args args' : List ExprId} {name : String} {f : FuncId}

theorem accepts_iff {tys : List Ty} :
    m.accepts f tys ↔ List.Forall₂ (fun p a => a.sub (m.paramTy p)) (m.func f).params tys := by
  rw [List.forall₂_iff_zip, accepts, Bool.and_eq_true, decide_eq_true_eq, List.all_eq_true]
  exact and_congr_right fun _ => ⟨fun h p a hp => h (p, a) hp, fun h q hq => h hq⟩

theorem SameHeads.regular (h : m.SameHeads m') (hm : m.Regular) : m'.Regular where
  params {f p} hf hp := by
    have hf := h.registered_iff.mp hf
    rw [h.func_eq] at hp
    rw [(h.params f hf p hp).1]
    exact hm.params hf hp
  ret {f} hf := by
    have hf := h.registered_iff.mp hf
    rw [h.func_eq, (h.ret f hf).1]
    exact hm.ret hf

-- No overload takes the turned arguments that did not take the arguments.
theorem accepts_of_turned (hm : m.Regular) (hf : m.Registered f)
    (h : List.Forall₂ (fun a a' => (m.ty a).Concrete ∧ ∃ t, m.Turned a t m₁ a') args args')
    (hacc : m.accepts f (args'.map m₁.ty)) : m.accepts f (args.map m.ty) := by
  rw [accepts_iff, List.forall₂_map_right_iff] at hacc ⊢
  have hparams : ∀ p ∈ (m.func f).params, (m.paramTy p).base ≠ .bot := fun p hp => (hm.params hf hp).1
  generalize (m.func f).params = ps at hacc hparams
  induction h generalizing ps with
  | nil =>
    cases hacc
    exact .nil
  | cons ha _ ih =>
    cases hacc with
    | cons hp hacc =>
      have ⟨hpb, hps⟩ := List.forall_mem_cons.mp hparams
      obtain ⟨hc, t, ht⟩ := ha
      exact .cons (ht.becomes.sub_of_sub hc hpb hp) (ih _ hacc hps)

-- The arguments side by side with the parameters that they are turned for.
theorem turned_zip {S : DeclId → ExprId → Prop} {ps : List DeclId} (h : List.Forall₂ S ps args)
    (hall : List.Forall₂ (fun q a' => m.Turned q.1 q.2 m₁ a')
      (args.zip ((ps.zip (args.map m.ty)).map fun (p, a) => m.argTy p a)) args') :
    List.Forall₂ (fun p a' => ∃ a, S p a ∧ m.Turned a (m.argTy p (m.ty a)) m₁ a') ps args' ∧
      List.Forall₂ (fun a a' => (∃ p, S p a) ∧ ∃ t, m.Turned a t m₁ a') args args' := by
  induction h generalizing args' with
  | nil =>
    cases hall
    exact ⟨.nil, .nil⟩
  | cons hs _ ih =>
    simp only [List.map_cons, List.zip_cons_cons] at hall
    cases hall with
    | cons ha hall =>
      have ⟨h₁, h₂⟩ := ih hall
      exact ⟨.cons ⟨_, hs, ha⟩ h₁, .cons ⟨⟨_, hs⟩, _, ha⟩ h₂⟩

theorem meets_argTys {ps : List DeclId}
    (h : List.Forall₂ (fun p a => (m₁.ty a).Meets (m.argTy p (m₁.ty a))) ps args) :
    List.Forall₂ (fun a t => (m₁.ty a).Meets t) args ((ps.zip (args.map m₁.ty)).map fun (p, a) => m.argTy p a) := by
  induction h with
  | nil => exact .nil
  | cons hp _ ih => exact .cons hp ih

-- Each argument is turned into what its parameter asks for.
theorem applied_turns (args : List ExprId) {c : Checking} {errors : Array TypeError} (hp : m.Promotes)
    (hargs : ∀ a ∈ args, a.index < m.exprs.size) (hacc : m.accepts f (args.map m.ty))
    (h : applied e f args (args.map m.ty) { model := m, errors } = .ok (args', t) c) :
    ∃ m₁ u, c = { model := m₁, errors } ∧ m.Wraps (· ∈ args) m₁ ∧ m₁.returnTy f (args'.map m₁.ty) (m₁.spanOf e) = .ok u ∧
      t = u.withCv ((args'.map m₁.ty).any (·.cv)) ∧
      List.Forall₂ (fun q a' => m.Turned q.1 q.2 m₁ a') (args.zip (m.argTys f (args.map m.ty))) args' := by
  rw [accepts_iff, List.forall₂_map_right_iff] at hacc
  have hlen : (m.argTys f (args.map m.ty)).length = args.length := by simp [argTys, hacc.length_eq]
  have hlist : ∀ q ∈ args.zip (m.argTys f (args.map m.ty)), (m.ty q.1).Listable q.2 := by
    rw [argTys]
    generalize (m.func f).params = ps at hacc
    clear hargs hlen h
    induction hacc with
    | nil => simp
    | cons hs _ ih => exact List.forall_mem_cons.mpr ⟨Ty.listable_target hs, ih⟩
  rw [applied, checkM_model_bind] at h
  obtain ⟨as', c₁, hc, h⟩ := bind_eq_ok.mp h
  obtain ⟨m₁, rfl, hw, hall⟩ := coerceEach_wraps hp (fun q hq => ⟨hargs q.1 (List.of_mem_zip hq).1, hlist q hq⟩) hc
  rw [List.map_fst_zip (Nat.le_of_eq hlen.symm)] at hw
  rw [checkM_model_bind] at h
  obtain ⟨u, _, hx, h⟩ := bind_eq_ok.mp h
  obtain ⟨hu, rfl⟩ := ofExcept_eq_ok.mp hx
  cases h
  exact ⟨m₁, u, rfl, hw, hu, rfl, hall⟩

theorem applied_applies (args : List ExprId) {r : List ExprId × Ty} {c : Checking} (hp : m.Promotes) (hr : m.Regular)
    (hargs : ∀ a ∈ args, a.index < m.exprs.size ∧ (m.ty a).Concrete)
    (hf : m.matchOverload? name (args.map m.ty) = some f)
    (h : applied e f args (args.map m.ty) { model := m } = .ok r c) :
    ∃ m₁, c = { model := m₁ } ∧ m.Wraps (· ∈ args) m₁ ∧ m₁.Applies name r.1 (m₁.spanOf e) f r.2 ∧ r.2.Concrete ∧
      List.Forall₂ (fun a a' => ∃ t, m.Turned a t m₁ a') args r.1 := by
  obtain ⟨as', ty⟩ := r
  obtain ⟨fs, hfs, hfind⟩ := Option.bind_eq_some_iff.mp hf
  obtain ⟨hacc, before, after, rfl, hbefore⟩ := List.find?_eq_some_iff_append.mp hfind
  have hreg : ∀ g ∈ before ++ f :: after, m.Registered g := fun g hg => Overload.registered ⟨_, hfs, hg⟩
  have hregf : m.Registered f := hreg f (by simp)
  obtain ⟨m₁, u, rfl, hw, hu, rfl, hall⟩ := applied_turns args hp (fun a ha => (hargs a ha).1) hacc h
  rw [accepts_iff, List.forall₂_map_right_iff] at hacc
  have hS : List.Forall₂ (fun p a => (m.ty a).Concrete ∧ (m.ty a).sub (m.paramTy p) ∧ (m.paramTy p).base ≠ .bot ∧
      (m.paramTy p).Flat) (m.func f).params args := by
    refine List.forall₂_iff_zip.mpr ⟨hacc.length_eq, fun {p a} hpa => ?_⟩
    obtain ⟨hmp, hma⟩ := List.of_mem_zip hpa
    exact ⟨(hargs a hma).2, (List.forall₂_iff_zip.mp hacc).2 hpa, hr.params hregf hmp⟩
  obtain ⟨hps, has⟩ := turned_zip hS hall
  have has : List.Forall₂ (fun a a' => (m.ty a).Concrete ∧ ∃ t, m.Turned a t m₁ a') args as' :=
    has.imp <| by
      rintro a a' ⟨⟨p, hc, _⟩, ht⟩
      exact ⟨hc, ht⟩
  have htaken : List.Forall₂ (fun p a' => (m₁.ty a').sub (m.paramTy p) ∧ (m₁.ty a').Meets (m.argTy p (m₁.ty a')))
      (m.func f).params as' :=
    hps.imp <| by
      rintro p a' ⟨a, ⟨hc, hs, hb, hflat⟩, ht⟩
      exact ht.becomes.argument hc hb hflat hs
  have hchosen : m.matchOverload? name (as'.map m₁.ty) = some f := by
    refine Option.bind_eq_some_iff.mpr ⟨_, hfs, List.find?_eq_some_iff_append.mpr ⟨?_, before, after, rfl, fun g hg => ?_⟩⟩
    · rw [accepts_iff, List.forall₂_map_right_iff]
      exact htaken.imp fun _ _ => And.left
    · have hno := hbefore g hg
      simp only [Bool.not_eq_true', ← Bool.not_eq_true] at hno ⊢
      exact fun h => hno (accepts_of_turned hr (hreg g (List.mem_append_left _ hg)) has h)
  refine ⟨m₁, rfl, hw, ⟨?_, ?_, u, hu, rfl⟩, ?_, has.imp fun a a' => And.right⟩
  · rw [hw.heads.matchOverload_eq]
    exact hchosen
  · rw [hw.heads.argTys_eq hregf]
    exact meets_argTys (htaken.imp fun _ _ => And.right)
  · have hret := (hw.heads.regular hr).ret (hw.heads.registered_iff.mpr hregf)
    have hbase := base_returnTy (B := fun b => b ≠ .bot ∧ b ≠ .unknown) hu ⟨hret.not_bot, hret.known⟩
      (List.forall_mem_map.mpr fun a' ha' => ?_)
    · exact ⟨hbase.1, hbase.2⟩
    · obtain ⟨a, _, hc, t, ht⟩ := forall₂_exists has.flip a' ha'
      have hc := ht.becomes.concrete hc
      exact ⟨hc.not_bot, hc.known⟩

theorem SameHeads.setMade {k : ExprKind} (hk : (m.kind e).isMade) (hk' : k.isMade) : m.SameHeads (m.setNode e k t) := by
  have hmade : ∀ {k : ExprKind} {v}, k.isMade → k ≠ .typeVar v := by
    rintro k v hk rfl
    cases hk
  exact .setNode fun v => iff_of_false (hmade hk') (hmade hk)

-- A call with its arguments as they have been turned.
theorem Finishes.of_applies {k : ExprKind} (hm : m.Typeable e) (hk : (m.kind e).isMade) (hk' : k.isMade)
    (has : ∀ gen, (m.kind e).parts gen = args.map .expr) (has' : ∀ gen, k.parts gen = args'.map .expr)
    (hw : m.Wraps (· ∈ args) m₁) (hall : List.Forall₂ (fun a a' => ∃ t, m.Turned a t m₁ a') args args')
    (happ : m₁.Applies name args' (m₁.spanOf e) f t) (ht : t.Concrete)
    (hs : ∀ M : Model, M.Applies name args' (M.spanOf e) f (M.ty e) → (∀ fn, M.withBody? fn = m₁.withBody? fn) →
      M.SettledAs e k) : m.Finishes e (m₁.setNode e k t) := by
  have hne : ∀ a' ∈ args', a' ≠ e := by
    intro a' ha'
    have ⟨a, ha, u, hturned⟩ := forall₂_exists hall.flip a' ha'
    exact (hturned.ty_setNode (k := k) (u := t) hm.present (hm.exprs args (has _) a ha).ne).1
  have hk₁ : (m₁.kind e).isMade := by rw [hw.grows.kind_eq hm.present]; exact hk
  have hheads : m₁.SameHeads (m₁.setNode e k t) := .setMade hk₁ hk'
  have he : e.index < m₁.exprs.size := Nat.lt_of_lt_of_le hm.present hw.grows.size_le
  refine .of_turned hk hk' has has' hw ?_ ht (hs _ ?_ hheads.withBody_eq)
  · intro a' ha'
    have ⟨a, ha, u, hturned⟩ := forall₂_exists hall.flip a' ha'
    exact hturned.mem_or_new ha
  · rw [ty_setNode he, spanOf_setNode]
    exact happ.congr hheads fun a' ha' => ty_setNode_ne (hne a' ha')

theorem finishes_bin {op : BinOp} {lhs rhs : ExprId} {fn : Option FuncId} (hm : m.Typeable e)
    (hk : m.kind e = .bin op lhs rhs fn) (h : Runs (bin e op lhs rhs) m ⟨⟩ m') : m.Finishes e m' := by
  have hop := hm.exprs [lhs, rhs] (by rw [hk]; rfl)
  rw [Runs, bin, checkM_model_bind] at h
  cases hf : m.matchOverload? op.name [m.ty lhs, m.ty rhs] with
  | none =>
    simp only [hf] at h
    cases h
  | some f =>
    simp only [hf] at h
    obtain ⟨⟨args', t⟩, c, hc, h⟩ := bind_eq_ok.mp h
    obtain ⟨m₁, rfl, hw, happ, htc, hall⟩ :=
      applied_applies [lhs, rhs] hm.promotes hm.regular (fun a ha => ⟨(hop a ha).present, (hop a ha).concrete⟩) hf hc
    obtain ⟨l, r, rfl⟩ : ∃ l r, args' = [l, r] := List.length_eq_two.mp hall.length_eq.symm
    cases h
    exact .of_applies (k := .bin op l r (m₁.withBody? (some f))) hm (hk ▸ rfl) rfl (fun _ => by rw [hk]; rfl)
      (fun _ => rfl) hw hall happ htc fun M hM hbody => ⟨f, hM, (hbody _).symm⟩

theorem finishes_un {op : UnOp} {arg : ExprId} {fn : Option FuncId} (hm : m.Typeable e)
    (hk : m.kind e = .un op arg fn) (h : Runs (un e op arg) m ⟨⟩ m') : m.Finishes e m' := by
  have hop := hm.exprs [arg] (by rw [hk]; rfl)
  rw [Runs, un, checkM_model_bind] at h
  cases hf : m.matchOverload? op.name [m.ty arg] with
  | none =>
    simp only [hf] at h
    cases h
  | some f =>
    simp only [hf] at h
    obtain ⟨⟨args', t⟩, c, hc, h⟩ := bind_eq_ok.mp h
    obtain ⟨m₁, rfl, hw, happ, htc, hall⟩ :=
      applied_applies [arg] hm.promotes hm.regular (fun a ha => ⟨(hop a ha).present, (hop a ha).concrete⟩) hf hc
    obtain ⟨a, rfl⟩ : ∃ a, args' = [a] := List.length_eq_one_iff.mp hall.length_eq.symm
    cases h
    exact .of_applies (k := .un op a (m₁.withBody? (some f))) hm (hk ▸ rfl) rfl (fun _ => by rw [hk]; rfl)
      (fun _ => rfl) hw hall happ htc fun M hM hbody => ⟨f, hM, (hbody _).symm⟩

theorem finishes_call {fn : Option FuncId} (hm : m.Typeable e) (hk : m.kind e = .call name args fn)
    (h : Runs (call e name args) m ⟨⟩ m') : m.Finishes e m' := by
  have hop := hm.exprs args (by rw [hk]; rfl)
  rw [Runs, call, checkM_model_bind] at h
  cases hf : m.matchOverload? name (args.map m.ty) with
  | none =>
    simp only [hf] at h
    cases h
  | some f =>
    simp only [hf] at h
    obtain ⟨⟨args', t⟩, c, hc, h⟩ := bind_eq_ok.mp h
    obtain ⟨m₁, rfl, hw, happ, htc, hall⟩ :=
      applied_applies args hm.promotes hm.regular (fun a ha => ⟨(hop a ha).present, (hop a ha).concrete⟩) hf hc
    cases h
    exact .of_applies (k := .call name args' (some f)) hm (hk ▸ rfl) rfl (fun _ => by rw [hk]; rfl)
      (fun _ => rfl) hw hall happ htc fun M hM _ => ⟨f, hM, rfl⟩

end Calls

section Access

theorem indexed_eq {i j : Ty} (h : j.inst = i.inst ∧ j.isOpt = i.isOpt ∧ j.cv = i.cv) : indexed t j = indexed t i := by
  unfold indexed Rules.markedBy Ty.isVar
  rw [h.1, h.2.1, h.2.2]

theorem base_foldl_indexed {f : ExprId → Ty} (is : List ExprId) (t : Ty) :
    (is.foldl (fun t i => indexed t (f i)) t).base = t.base := by
  refine List.foldlRecOn (motive := fun u : Ty => u.base = t.base) _ _ rfl fun u hu i _ => ?_
  rw [indexed, Rules.base_markedBy]
  split <;> split <;> exact hu

theorem isIndex_becomes {i j : Ty} (hi : IsIndex i) (h : i.Becomes .varInt j) : IsIndex j := by
  cases h with
  | same => exact hi
  | listed hset => simp [IsIndex, hset] at hi
  | widened hplain =>
    simp only [Ty.isPlain, Bool.and_eq_true, Bool.not_eq_true', decide_eq_true_eq] at hplain
    simp [IsIndex, Ty.isSetTy, Ty.withBase, Ty.varInt, Ty.of, hplain]

theorem checkM_operand_bind {α : Type} (g : Operand → CheckM α) (c : Checking) :
    (CheckM.operand a >>= g) c = g (c.model.operand a) c :=
  rfl

theorem index_turned {i : ExprId} {r : ExprId × Ty} {c : Checking} (hp : m.Promotes) (hi : m.TypedPart e i)
    (h : index t i { model := m } = .ok r c) : ∃ m₁, c = { model := m₁ } ∧ m.Wraps (· = i) m₁ ∧
      m.Turned i .varInt m₁ r.1 ∧ IsIndex (m.ty i) ∧ r.2 = indexed t (m.ty i) := by
  have hanon : ¬(m.operand i).isAnon := Bool.eq_false_iff.mp hi.named
  rw [index, checkM_operand_bind, if_neg hanon] at h
  dsimp only at h
  rw [checkM_operand_bind] at h
  split at h
  · cases h
  · next hindex =>
    obtain ⟨i', _, hx, h⟩ := bind_eq_ok.mp h
    obtain ⟨m₁, hc, rfl⟩ := coerce_eq_ok hx
    obtain ⟨rfl, rfl⟩ := pure_eq_ok.mp h
    have ⟨hw, ht⟩ := coerce_wraps hp (hi.concrete.listable _) hc
    exact ⟨m₁, rfl, hw, ht, hindex, rfl⟩

theorem accessed_turned {array array' : ExprId} {c : Checking} (hp : m.Promotes) (ha : m.TypedPart e array)
    (h : accessed array { model := m } = .ok array' c) : ∃ m₁ t, c = { model := m₁ } ∧ m.Wraps (· = array) m₁ ∧
      m.Turned array t m₁ array' ∧ (m₁.ty array').dim ≠ 0 := by
  rw [accessed, checkM_operand_bind] at h
  split at h
  · next hdim =>
    have hdim : (m.ty array).dim = 0 := hdim
    dsimp only at h
    split at h
    · cases h
    · obtain ⟨m₁, hc, rfl⟩ := coerce_eq_ok h
      have ⟨hw, ht⟩ := coerce_wraps hp (ha.concrete.listable _) hc
      refine ⟨m₁, _, rfl, hw, ht, ?_⟩
      have hb := ht.becomes
      generalize m₁.ty array' = v at hb
      cases hb with
      | same h =>
        exact (h.elim (fun h => by cases hdim.symm.trans h.1) fun h => h.1 ⟨hdim, Int.one_ne_zero⟩).elim
      | listed => exact Int.one_ne_zero
      | widened _ hd => cases hd
  · next hdim =>
    obtain ⟨rfl, rfl⟩ := pure_eq_ok.mp h
    have hsame : (m.ty array).Meets (m.ty array) := .inl ⟨rfl, .inr ((Ty.baseAgrees_iff ha.concrete).mpr (.inr rfl))⟩
    exact ⟨m, m.ty array, rfl, .refl _ _, ⟨.same hsame, .inl rfl⟩, hdim⟩

theorem TypedPart.adds (h : m.TypedPart e a) (hm : m.Adds m₁) : m₁.TypedPart e a where
  present := Nat.lt_of_lt_of_le h.present hm.grows.size_le
  ne := h.ne
  concrete := hm.ty_eq h.present ▸ h.concrete
  named := hm.grows.kind_eq h.present ▸ h.named

-- The indices are turned one after another, and the type of the access grows with them.
theorem indices_turned {is : List ExprId} {r r' : List ExprId × Ty} {c : Checking} (hp : m.Promotes)
    (his : ∀ i ∈ is, m.TypedPart e i)
    (h : (is.foldlM (fun r i => do
      let (i, t) ← index r.2 i
      return (r.1 ++ [i], t)) r : CheckM (List ExprId × Ty)) { model := m } = .ok r' c) :
    ∃ m₁ is', c = { model := m₁ } ∧ m.Wraps (· ∈ is) m₁ ∧ r'.1 = r.1 ++ is' ∧
      List.Forall₂ (fun i i' => m.Turned i .varInt m₁ i' ∧ IsIndex (m.ty i)) is is' ∧
      r'.2 = is.foldl (fun t i => indexed t (m.ty i)) r.2 := by
  induction is generalizing m r with
  | nil =>
    obtain ⟨rfl, rfl⟩ := pure_eq_ok.mp h
    exact ⟨m, [], rfl, .refl _ _, by simp, .nil, rfl⟩
  | cons i is ih =>
    have ⟨hi, hrest⟩ := List.forall_mem_cons.mp his
    rw [List.foldlM_cons] at h
    obtain ⟨r₁, c₁, h₁, h⟩ := bind_eq_ok.mp h
    obtain ⟨⟨i', t⟩, c₂, hx, h₁⟩ := bind_eq_ok.mp h₁
    obtain ⟨rfl, rfl⟩ := pure_eq_ok.mp h₁
    obtain ⟨m₁, rfl, hw₁, ht₁, hindex, rfl⟩ := index_turned hp hi hx
    obtain ⟨m₂, is', rfl, hw₂, hout, hall, hty⟩ := ih (hw₁.heads.promotes hp) (fun i hi => (hrest i hi).adds hw₁.toAdds) h
    have hw₁' : m.Wraps (· ∈ i :: is) m₁ := hw₁.mono fun a ha => by simp [ha]
    have hw₂' : m₁.Wraps (· ∈ i :: is) m₂ := hw₂.mono fun a ha => List.mem_cons_of_mem _ ha
    refine ⟨m₂, i' :: is', rfl, hw₁'.trans hw₂' fun a ha => (his a ha).present, by simp [hout], ?_, ?_⟩
    · refine .cons ⟨ht₁.mono hw₂.toAdds hw₁.toAdds hi.present, hindex⟩ ?_
      have hall := (List.forall₂_and_left _ _).mpr ⟨hrest, hall⟩
      exact hall.imp fun i i' ⟨hi, ht, hindex⟩ => ⟨ht.of_adds hw₁.toAdds hi.present, hw₁.ty_eq hi.present ▸ hindex⟩
    · rw [hty, List.foldl_cons]
      exact List.foldl_ext _ _ _ fun t j hj => by rw [hw₁.ty_eq (hrest j hj).present]

theorem foldl_indexed {f g : ExprId → Ty} {is is' : List ExprId} (t : Ty)
    (h : List.Forall₂ (fun i i' => (f i).Becomes .varInt (g i')) is is') :
    is'.foldl (fun t i => indexed t (g i)) t = is.foldl (fun t i => indexed t (f i)) t := by
  induction h generalizing t with
  | nil => rfl
  | cons hi _ ih => rw [List.foldl_cons, List.foldl_cons, indexed_eq hi.marks, ih]

theorem finishes_access {array : ExprId} {indices : List ExprId} (hm : m.Typeable e)
    (hk : m.kind e = .access array indices) (h : Runs (access e array indices) m ⟨⟩ m') : m.Finishes e m' := by
  have hop := hm.exprs (array :: indices) (by rw [hk]; rfl)
  obtain ⟨harray, his⟩ := List.forall_mem_cons.mp hop
  obtain ⟨array', c, hx, h⟩ := bind_eq_ok.mp h
  obtain ⟨m₁, u, rfl, hw₁, hturned, hdim⟩ := accessed_turned hm.promotes harray hx
  rw [checkM_operand_bind] at h
  obtain ⟨hrank, h⟩ := Runs.of_guard h
  obtain ⟨⟨indices', t⟩, c, hx, h⟩ := bind_eq_ok.mp h
  obtain ⟨m₂, is', rfl, hw₂, hout, hall', hty⟩ :=
    indices_turned (hw₁.heads.promotes hm.promotes) (fun i hi => (his i hi).adds hw₁.toAdds) hx
  obtain rfl : indices' = is' := hout
  obtain rfl : m' = m₂.setNode e (.access array' indices') t := congrArg Checking.model (setKind_setTy_eq_ok h)
  have hw : m.Wraps (· ∈ array :: indices) m₂ := by
    have hw₁' : m.Wraps (· ∈ array :: indices) m₁ := hw₁.mono fun a ha => by simp [ha]
    exact hw₁'.trans (hw₂.mono fun a ha => List.mem_cons_of_mem _ ha) fun a ha => (hop a ha).present
  have he₁ : e.index < m₁.exprs.size := Nat.lt_of_lt_of_le hm.present hw₁.grows.size_le
  have he : e.index < m₂.exprs.size := Nat.lt_of_lt_of_le hm.present hw.grows.size_le
  have hneArray : array' ≠ e := (hturned.ty_setNode (k := .anon) (u := t) hm.present harray.ne).1
  have htyArray : (m₂.setNode e (.access array' indices') t).ty array' = m₁.ty array' := by
    rw [ty_setNode_ne hneArray, hw₂.ty_eq (hturned.lt hw₁.toAdds harray.present)]
  have hall : List.Forall₂ (fun i i' => i' ≠ e ∧ (m₂.kind i').isAnon = false ∧ IsIndex (m₁.ty i) ∧
      (m₁.ty i).Becomes .varInt ((m₂.setNode e (.access array' indices') t).ty i')) indices indices' := by
    have hall := (List.forall₂_and_left _ _).mpr ⟨fun i hi => (his i hi).adds hw₁.toAdds, hall'⟩
    refine hall.imp fun i i' ⟨hi, ht, hindex⟩ => ?_
    obtain ⟨hne, hb⟩ := ht.ty_setNode (k := .access array' indices') (u := t) he₁ hi.ne
    exact ⟨hne, ht.named hw₂ hi, hindex, hb⟩
  have hlen : indices.length = indices'.length := hall.length_eq
  have hrank : (m₁.ty array').dim = indices.length := not_not.mp hrank
  refine .of_turned (hk ▸ rfl) rfl (fun _ => by rw [hk]; rfl) (fun _ => rfl) hw ?_ ?_ ?_
  · have hall := hall'.imp fun i i' h => h.1
    refine List.forall_mem_cons.mpr ⟨?_, fun i' hi' => ?_⟩
    · exact (hturned.mono hw₂.toAdds hw₁.toAdds harray.present).mem_or_new List.mem_cons_self
    · obtain ⟨i, hi, ht⟩ := forall₂_exists hall.flip i' hi'
      exact (ht.of_adds hw₁.toAdds (his i hi).present).mem_or_new (List.mem_cons_of_mem _ hi)
  · have hc := hturned.becomes.concrete harray.concrete
    have hbase : t.base = (m₁.ty array').base := by
      rw [show t = _ from hty, base_foldl_indexed]
      rfl
    exact ⟨hbase ▸ hc.not_bot, hbase ▸ hc.known⟩
  · rw [SettledAs, htyArray, ty_setNode he, foldl_indexed _ (hall.imp fun _ _ h => h.2.2.2)]
    refine ⟨hdim, by rw [hrank, hlen], fun i' hi' => ?_, hty⟩
    obtain ⟨i, _, hne, hanon, hindex, hb⟩ := forall₂_exists hall.flip i' hi'
    exact ⟨by rw [kind_setNode_ne hne]; exact hanon, isIndex_becomes hindex hb, hb.meets⟩

end Access

theorem finishes_ite {branches : List (ExprId × ExprId)} {otherwise : ExprId} (hm : m.Typeable e)
    (hk : m.kind e = .ite branches otherwise) (h : Runs (ite e branches otherwise) m ⟨⟩ m') : m.Finishes e m' := by
  have hparts : ∀ (bs : List (ExprId × ExprId)) o gen,
      (ExprKind.ite bs o).parts gen = (bs.flatMap (fun b => [b.1, b.2]) ++ [o]).map .expr := by
    intro bs o gen
    simp [ExprKind.parts, List.map_flatMap]
  have hop := hm.exprs _ (hk ▸ hparts branches otherwise _)
  have hlast : m.TypedPart e otherwise := hop _ (by simp)
  have hbs : ∀ b ∈ branches, m.TypedPart e b.1 ∧ m.TypedPart e b.2 := fun b hb =>
    ⟨hop _ (List.mem_append_left _ (List.mem_flatMap.mpr ⟨b, hb, by simp⟩)),
      hop _ (List.mem_append_left _ (List.mem_flatMap.mpr ⟨b, hb, by simp⟩))⟩
  obtain ⟨c, hc, h⟩ := Runs.ofExcept_bind h
  obtain ⟨hcc, hanons, ⟨hosub, hodim⟩, hbsub, hagain⟩ :=
    Rules.conditional_eq_ok hc (List.forall_mem_map.mpr fun b hb => (hbs b hb).2.concrete) hlast.concrete
  have hbsub : ∀ b ∈ branches, (m.ty b.2).base.sub c.ty.base ∧ (m.ty b.2).dim = c.ty.dim := fun b hb =>
    hbsub _ (List.mem_map_of_mem hb)
  obtain ⟨_, _, hnone, h⟩ := bind_eq_ok.mp h
  rw [hanons] at hnone
  obtain ⟨-, rfl⟩ := pure_eq_ok.mp hnone
  obtain ⟨branches', _, hx, h⟩ := bind_eq_ok.mp h
  have hmap : (fun b : ExprId × ExprId => (do return (b.1, ← CheckM.coerce b.2 c.ty) : CheckM (ExprId × ExprId))) =
      fun b => (fun v => (b.1, v)) <$> CheckM.coerce b.2 c.ty := by
    funext b
    rw [bind_pure_comp]
  obtain ⟨m₁, rfl, hw₁, hall⟩ := coerceAll_wraps (k := fun b v => (b.1, v)) hm.promotes
    (fun b hb => ⟨(hbs b hb).2.present, (hbs b hb).2.concrete.listable _⟩) (hmap ▸ hx)
  obtain ⟨otherwise', m₂, hx, h⟩ := Runs.coerce_bind h
  have hlast₁ := hlast.adds hw₁.toAdds
  obtain ⟨hw₂, hturned⟩ := coerce_wraps (hw₁.heads.promotes hm.promotes) (hlast₁.concrete.listable _) hx
  obtain ⟨_, _, hset, h⟩ := bind_eq_ok.mp h
  cases hset
  split at h
  · cases h
  · next hvar =>
    obtain rfl : m' = m₂.setNode e (.ite branches' otherwise') c.result := by
      cases h
      rfl
    have hw : m.Wraps (· ∈ branches.flatMap (fun b => [b.1, b.2]) ++ [otherwise]) m₂ := by
      refine (hw₁.mono fun a ha => ?_).trans (hw₂.mono fun a ha => by simp [ha]) fun a ha => (hop a ha).present
      obtain ⟨b, hb, rfl⟩ := List.mem_map.mp ha
      exact List.mem_append_left _ (List.mem_flatMap.mpr ⟨b, hb, by simp⟩)
    have he : e.index < m₂.exprs.size := Nat.lt_of_lt_of_le hm.present hw.grows.size_le
    have hturned := hturned.of_adds hw₁.toAdds hlast.present
    obtain ⟨_, hb⟩ := hturned.ty_setNode (k := .ite branches' otherwise') (u := c.result) hm.present hlast.ne
    have hall : List.Forall₂ (fun b b' => b ∈ branches ∧ b'.1 = b.1 ∧ m.Turned b.2 c.ty m₂ b'.2) branches branches' :=
      ((List.forall₂_and_left _ _).mpr ⟨fun _ hb => hb, hall⟩).imp <| by
        rintro b b' ⟨hb, v, hv, ht⟩
        exact ⟨hb, hv ▸ rfl, hv ▸ ht.mono hw₂.toAdds hw₁.toAdds (hbs b hb).2.present⟩
    refine .of_turned (hk ▸ rfl) rfl (hk ▸ hparts _ _) (hparts _ _) hw ?_ ?_ ?_
    · intro a' ha'
      obtain ha' | ha' := List.mem_append.mp ha'
      · obtain ⟨b', hb', ha'⟩ := List.mem_flatMap.mp ha'
        obtain ⟨b, _, hb, hfst, ht⟩ := forall₂_exists hall.flip b' hb'
        have hmem : ∀ a ∈ [b.1, b.2], a ∈ branches.flatMap (fun b => [b.1, b.2]) ++ [otherwise] := fun a ha =>
          List.mem_append_left _ (List.mem_flatMap.mpr ⟨b, hb, ha⟩)
        simp only [List.mem_cons, List.not_mem_nil, or_false, hfst] at ha'
        obtain rfl | rfl := ha'
        · exact .inl (hmem _ (by simp))
        · exact ht.mem_or_new (hmem _ (by simp))
      · obtain rfl := List.mem_singleton.mp ha'
        exact hturned.mem_or_new (by simp)
    · have hbase := Rules.base_result c
      exact ⟨hbase ▸ hcc.not_bot, hbase ▸ hcc.known⟩
    · rw [SettledAs, ty_setNode he]
      refine ⟨c, hagain _ _ ?_ ?_, hanons, fun b' hb' => ?_, hb.meets, hvar, rfl⟩
      · rw [Rules.Widened, List.forall₂_map_left_iff, List.forall₂_map_right_iff]
        refine hall.imp ?_
        rintro b b' ⟨hmem, hfst, ht⟩
        refine ⟨?_, ?_⟩
        · obtain ⟨hb₁, _⟩ := hbs b hmem
          change Model.operand _ b'.1 = m.operand b.1
          rw [hfst, operand_setNode_ne hb₁.ne, operand, hw.grows.expr_eq hb₁.present, operand]
        · obtain ⟨_, hb₂⟩ := hbs b hmem
          obtain ⟨_, hv⟩ := ht.ty_setNode (k := .ite branches' otherwise') (u := c.result) hm.present hb₂.ne
          obtain ⟨hs, hd⟩ := hbsub b hmem
          exact hv.eq_withBase hb₂.concrete (fun h => hd ▸ h) hcc.not_bot hs
      · exact hb.eq_withBase hlast.concrete (fun h => hodim ▸ h) hcc.not_bot hosub
      · obtain ⟨b, _, hmem, _, ht⟩ := forall₂_exists hall.flip b' hb'
        exact (ht.ty_setNode hm.present (hbs b hmem).2.ne).2.meets

section Plain

theorem setNode_kind (m : Model) (e : ExprId) (t : Ty) : m.setNode e (m.kind e) t = m.setTy e t := by
  rw [setNode, setKind, modifyExpr_self rfl]

-- The node keeps its kind.
theorem Finishes.of_setTy (ht : t.Concrete) (hn : (m.kind e).isAnon = false)
    (hs : (m.setTy e t).SettledAs e (m.kind e)) : m.Finishes e (m.setTy e t) := by
  rw [← setNode_kind] at hs ⊢
  exact ⟨m, m.kind e, t, rfl, .refl _ _, .inl rfl, fun _ _ hc => .inl hc, ht, hn, hs⟩

theorem finishes_constant (hk : (m.kind e).isConstant) (ht : (m.ty e).Concrete) : m.Finishes e m := by
  have hself : m.setTy e (m.ty e) = m := modifyExpr_self rfl
  have h : m.Finishes e (m.setTy e (m.ty e)) := .of_setTy ht ?_ ?_
  · rwa [hself] at h
  · cases hk' : m.kind e <;> first | rfl | simp [hk', ExprKind.isConstant] at hk
  · cases hk' : m.kind e <;> first | trivial | simp [hk', ExprKind.isConstant] at hk

theorem finishes_ident {name : String} {b : Option DeclId} (he : e.index < m.exprs.size)
    (hk : m.kind e = .ident name b) (hbase : ∀ d, (m.decl d).ty.base ≠ .bot) (h : Runs (ident e name b) m ⟨⟩ m') :
    m.Finishes e m' := by
  cases b with
  | none => cases h
  | some d =>
    rw [Runs, ident, checkM_model_bind] at h
    obtain ⟨hknown, h⟩ := Runs.of_guard h
    have hknown : (m.decl d).ty.Known := Ty.known_iff.mpr hknown
    cases h
    refine .of_setTy ⟨hbase d, hknown⟩ (hk ▸ rfl) ?_
    rw [hk]
    exact ⟨hknown, by rw [ty_setTy, if_pos ⟨rfl, he⟩]; rfl⟩

theorem finishes_comp {c : Comprehension} (hm : m.Typeable e) (hk : m.kind e = .comp c)
    (hgens : ∀ g ∈ c.generators, m.Ranges g)
    (h : Rules.comp c.isSet (m.operand c.body) (c.generators.map fun g => m.ty g.source) (c.guard.map m.operand) =
      .ok t) : m.Finishes e (m.setTy e t) := by
  have hparts := fun a => hm.part (a := a)
  rw [hk] at hparts
  simp only [ExprKind.parts, List.mem_append, List.mem_flatMap, List.mem_map, List.mem_singleton] at hparts
  have hbody : m.TypedPart e c.body := hparts _ (.inr rfl)
  have hsource : ∀ g ∈ c.generators, m.TypedPart e g.source := fun g hg =>
    hparts _ (.inl (.inl ⟨g, hg, List.mem_singleton.mpr rfl⟩))
  have hguard : ∀ a ∈ c.guard, m.TypedPart e a := fun a ha =>
    hparts _ (.inl (.inr ⟨a, by simp [Option.mem_def.mp ha], rfl⟩))
  have hop : ∀ {a}, m.TypedPart e a → (m.setTy e t).operand a = m.operand a := fun ha => by
    rw [← setNode_kind, operand_setNode_ne ha.ne]
  have hbase : t.base = (m.ty c.body).base := Rules.base_comp h
  refine .of_setTy ⟨hbase ▸ hbody.concrete.not_bot, hbase ▸ hbody.concrete.known⟩ (hk ▸ rfl) ?_
  rw [hk]
  refine ⟨fun g hg => ?_, ?_⟩
  · obtain ⟨u, hu, hdecls⟩ := (hgens g hg).exists_ty
    exact ⟨u, hop (hsource g hg) ▸ hu, hdecls⟩
  · have hsources : (c.generators.map fun g => (m.setTy e t).ty g.source) = c.generators.map fun g => m.ty g.source :=
      List.map_congr_left fun g hg => congrArg Operand.ty (hop (hsource g hg))
    have hguards : c.guard.map (m.setTy e t).operand = c.guard.map m.operand :=
      Option.map_congr fun a ha => hop (hguard a ha)
    have hty : (m.setTy e t).ty e = t := by simp [ty_setTy, hm.present]
    rw [hop hbody, hsources, hguards, hty]
    exact h

end Plain

section Lets

-- The checks on a let item report nothing and change nothing.
theorem letOrigin_eq_ok {item : LetItem} {old o : Option ExprId} {c : Checking}
    (h : letOrigin item old { model := m } = .ok o c) (hc : c.errors = #[]) :
    c = { model := m } ∧ o = m.originOf item old ∧ ∀ d, item = .decl d → m.Local d := by
  cases item with
  | constraint a =>
    obtain ⟨rfl, rfl⟩ := pure_eq_ok.mp h
    exact ⟨rfl, rfl, nofun⟩
  | decl d =>
    rw [letOrigin, checkM_model_bind] at h
    obtain ⟨_, c₁, hf, h⟩ := bind_eq_ok.mp h
    have hc₁ : c₁.errors = #[] := by
      refine Upholds.quiet ?_ h hc
      exact .when (.fail _ _) (.bind .model fun _ _ => .when (.report stable_reported.report _ _) (.done _))
    rw [finiteSet, checkM_model_bind] at hf
    dsimp only at hf
    split at hf
    · cases hf
      simp at hc₁
    · next hfinite =>
      obtain ⟨-, rfl⟩ := pure_eq_ok.mp hf
      split at h
      · cases h
      · next hvalued =>
        dsimp only at h
        rw [checkM_model_bind] at h
        split at h
        · cases h
          simp at hc
        · next hclosed =>
          obtain ⟨rfl, rfl⟩ := pure_eq_ok.mp h
          exact ⟨rfl, rfl, fun d' hd => by cases hd; exact ⟨hfinite, hvalued, hclosed⟩⟩

theorem letOrigins_eq_ok (old : Nat → Option ExprId) {ps : List (LetItem × Nat)} {os : List (Option ExprId)} {c : Checking}
    (h : (ps.mapM fun p => letOrigin p.1 (old p.2) : CheckM (List (Option ExprId))) { model := m } = .ok os c)
    (hc : c.errors = #[]) : c = { model := m } ∧ os = ps.map (fun p => m.originOf p.1 (old p.2)) ∧
      ∀ p ∈ ps, ∀ d, p.1 = .decl d → m.Local d := by
  induction ps generalizing os with
  | nil =>
    obtain ⟨rfl, rfl⟩ := pure_eq_ok.mp h
    exact ⟨rfl, rfl, nofun⟩
  | cons p ps ih =>
    rw [List.mapM_cons] at h
    obtain ⟨o, c₁, h₁, h⟩ := bind_eq_ok.mp h
    obtain ⟨os', c₂, h₂, h⟩ := bind_eq_ok.mp h
    obtain ⟨rfl, rfl⟩ := pure_eq_ok.mp h
    have hc₁ : c₁.errors = #[] := by
      refine Upholds.quiet ?_ h₂ hc
      exact .mapM fun p _ => upholds_letOrigin stable_reported.report p.1 _
    obtain ⟨rfl, rfl, hp⟩ := letOrigin_eq_ok h₁ hc₁
    obtain ⟨rfl, rfl, hps⟩ := ih h₂
    exact ⟨rfl, rfl, List.forall_mem_cons.mpr ⟨hp, hps⟩⟩

theorem hasTypeVar_congr {ti : TypeInstId} (ht : m.SameTables m') (hk : ∀ a, (m'.kind a).isTypeVar = (m.kind a).isTypeVar) :
    hasTypeVar m' ti = hasTypeVar m ti := by
  have htis : m'.typeInsts = m.typeInsts := by rw [ht]
  have hti : ∀ t, m'.typeInst t = m.typeInst t := fun t => by rw [typeInst, typeInst, htis]
  rw [hasTypeVar, hasTypeVar, htis]
  generalize m.typeInsts.size = depth
  induction depth generalizing ti with
  | zero => rfl
  | succ depth ih =>
    have hranges : mentionsTypeVar m' depth = mentionsTypeVar m depth := funext fun _ => ih
    simp only [mentionsTypeVar, hti, hk, hranges]

-- Noting the initializers again notes the same.
theorem origin_again {items : List LetItem} {old : List (Option ExprId)} :
    let os := items.zipIdx.map fun p => m.originOf p.1 (old[p.2]?.getD none)
    os = items.zipIdx.map fun p => m.originOf p.1 (os[p.2]?.getD none) := by
  intro os
  refine List.ext_getElem? fun i => ?_
  simp only [os, List.getElem?_map, List.getElem?_zipIdx, Nat.zero_add]
  cases hi : items[i]? with
  | none => simp
  | some item => cases item <;> simp [originOf, hi]

theorem finishes_letIn {l : Let} (hm : m.Typeable e) (hk : m.kind e = .letIn l)
    (h : Runs (do
      let origin ← l.items.zipIdx.mapM fun (item, i) => letOrigin item (l.origin[i]?.getD none)
      CheckM.setKind e (.letIn { l with origin })
      let m ← CheckM.model
      let t := m.ty l.body
      CheckM.setTy e (t.withCv (t.cv || l.items.any (letItemCv m)))) m ⟨⟩ m') : m.Finishes e m' := by
  have hparts := fun a => hm.part (a := a)
  rw [hk] at hparts
  simp only [ExprKind.parts, List.mem_append, List.mem_map, List.mem_singleton] at hparts
  have hbody : m.TypedPart e l.body := hparts _ (.inr rfl)
  obtain ⟨origin, c, hx, h⟩ := bind_eq_ok.mp h
  have hc : c.errors = #[] := by
    refine Upholds.quiet ?_ h rfl
    exact .seq (.setKind stable_reported e rfl) fun _ => .bind .model fun _ _ => .setTy stable_reported _ _
  obtain ⟨rfl, rfl, hlocal⟩ := letOrigins_eq_ok (fun i => l.origin[i]?.getD none) hx hc
  cases h
  generalize hl : ({ l with origin := l.items.zipIdx.map fun p => m.originOf p.1 (l.origin[p.2]?.getD none) } : Let) = l'
  have hitems : l'.items = l.items ∧ l'.body = l.body := by
    rw [← hl]
    exact ⟨rfl, rfl⟩
  have hty : ∀ a, (m.setKind e (.letIn l')).ty a = m.ty a := by
    intro a
    rw [ty, setKind, expr_modifyExpr]
    split
    · next h => rw [h.1, ty]
    · rfl
  have hcv : letItemCv (m.setKind e (.letIn l')) = letItemCv m := by
    funext item
    cases item with
    | decl d => rfl
    | constraint a => exact congrArg Ty.cv (hty a)
  change m.Finishes e ((m.setKind e (.letIn l')).setTy e (Ty.withCv ((m.setKind e (.letIn l')).ty l.body)
    (((m.setKind e (.letIn l')).ty l.body).cv || l.items.any (letItemCv (m.setKind e (.letIn l'))))))
  rw [hty, hcv]
  generalize ht : (m.ty l.body).withCv ((m.ty l.body).cv || l.items.any (letItemCv m)) = t
  have htc : t.Concrete := by
    rw [← ht]
    exact ⟨hbody.concrete.not_bot, hbody.concrete.known⟩
  refine ⟨m, .letIn l', t, rfl, .refl _ _, .inr ⟨rfl, hk ▸ rfl⟩, fun gen c hc => .inl ?_, htc, rfl, ?_, ?_, ?_⟩
  · rw [hk]
    simpa [ExprKind.parts, hitems] using hc
  · intro d hd
    rw [hitems.1] at hd
    obtain ⟨i, hi⟩ := List.getElem?_of_mem hd
    have hlocal : m.Local d := hlocal (.decl d, i) (List.mk_mem_zipIdx_iff_getElem?.mpr hi) d rfl
    refine ⟨hlocal.finite, hlocal.valued, ?_⟩
    have hvar : hasTypeVar (m.setNode e (.letIn l') t) (m.decl d).ti = hasTypeVar m (m.decl d).ti :=
      hasTypeVar_congr rfl fun a => by
        by_cases ha : a = e
        · rw [ha, kind_setNode hm.present, hk]
          rfl
        · rw [kind_setNode_ne ha]
    exact fun h => hlocal.closed (hvar ▸ h)
  · rw [← hl]
    exact origin_again
  · have hcv : l.items.any (letItemCv (m.setNode e (.letIn l') t)) = l.items.any (letItemCv m) := by
      refine any_congr_of_mem fun item hi => ?_
      cases item with
      | decl d => rfl
      | constraint a => exact congrArg Ty.cv (ty_setNode_ne (hparts a (.inl ⟨_, hi, rfl⟩)).ne)
    rw [hitems.1, hitems.2, ty_setNode hm.present, ty_setNode_ne hbody.ne, hcv]
    exact ht.symm

end Lets

end Model
end Finishing
end Parvar
