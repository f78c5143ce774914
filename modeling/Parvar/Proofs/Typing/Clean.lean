import Parvar.Proofs.Typing.Assigned
import Parvar.Proofs.Typing.Order
import Parvar.Proofs.Typing.Prepared

/-!
Models that were checked without an error. Every expression that the value of an item is made of has a
type, every name in it is bound to a declaration of known type, and every call in it, coercions
included, is one of a function with as many parameters as it has arguments.
-/

namespace Parvar

open Model

section Definitions

variable (m : Model)

-- What an item has a value of.
def Model.itemValues : Item → List Site
  | .decl d => [.decl d]
  | .constraint e | .output e => [.expr e]
  | .solve goal _ => goal.objective?.toList.map .expr
  | .func f => (m.func f).body.toList.map .expr
  | .submodel _ | .assign _ => []

end Definitions

variable {α : Type} {full : Prop} {w w₁ m m₁ m' : Model}

namespace Typing

variable (pass : Pass)

theorem completes_declare (d : DeclId) : Completes full w (declare pass d) fun _ _ => True := by
  apply Completes.bind .model
  intro m w₁ h₁ _
  apply Completes.bind (visits_assignTypes full pass (.typeInst _) w₁ (by simp))
  intro _ w₂ h₂ ht
  apply Completes.bind .model
  intro m₂ w₃ h₃ ⟨hm, _⟩
  subst hm
  exact .retype fun m' _ => retypes_setDeclTy fun hf => (h₃.completing hf).typeInsts _ ht

-- After its declaration the type that a function returns is known, and stays so.
theorem completes_declareFunc {f : FuncId} (hf : f.index < w.funcs.size) :
    Completes full w (declareFunc pass f) fun _ w' => (w'.typeInst (w'.func f).ret).ty.Known := by
  apply Completes.bind .model
  intro m w₁ h₁ ⟨hm, _⟩
  subst hm
  apply Completes.bind (visits_assignTypes full pass (.typeInst _) w₁ (by simp))
  intro _ w₂ h₂ ht
  have hparam : ∀ p w', Completes full w' (assignTypes pass (.decl p)) fun _ _ => True := fun p w' =>
    (visits_assignTypes full pass (.decl p) w' (by simp)).mono fun _ _ _ _ => trivial
  apply (Completes.forM (fun _ _ _ _ _ => trivial) fun p _ w' _ => hparam p w').mono
  intro _ w₃ h₃ _
  refine h₃.rets f ((h₁.trans h₂).size ▸ hf) ?_
  rw [(h₂.func f).2]
  exact ht

-- A type is assigned, and then looked at.
theorem completes_examine {e : ExprId} {p : Operand → Prop} [DecidablePred p]
    {cause : Operand → TypeError.Cause} (he : w.kind e ≠ .anon) : Completes full w (do
      assignTypes pass (.expr e)
      let x ← CheckM.operand e
      if p x then CheckM.fail (cause x) x.span) fun _ w' => w'.Usable full e := by
  apply Completes.bind (completes_visit (visits_assignTypes full pass) he)
  intro _ w₁ h₁ he
  apply Completes.bind (.operand e)
  intro x w₂ h₂ _
  split
  · exact .fail _ _
  · exact .pure fun w₃ h₃ => he.mono (h₂.trans h₃)

theorem completes_func {f : FuncId} {p : ItemPath} (hp : w.itemAt? p = some (.func f)) :
    Completes full w (func pass f) fun _ w' =>
      ∀ e ∈ (w'.func f).body, full → w'.Complete (.expr e) := by
  apply Completes.bind .model
  intro m w₁ h₁ ⟨hm, hform⟩
  subst hm
  have hrooted := hform.rooted p (.func f) ((h₁.itemAt_eq p).trans hp)
  have hann : ∀ a ∈ (w₁.func f).ann, w₁.kind a ≠ .anon := fun a ha => hrooted a (by simp [itemSites, ha])
  have hbody : ∀ a ∈ (w₁.func f).body.toList, w₁.kind a ≠ .anon := fun a ha =>
    hrooted a (List.mem_append_right _ (List.mem_map_of_mem ha))
  -- The body is what it was and has been visited, or has been completed.
  refine Completes.mono (P := fun _ w' => ∀ a ∈ (w₁.func f).body.toList, w'.Usable full a) ?_ ?_
  · apply Completes.bind (completes_annotations (visits_assignTypes full pass) hann)
    intro _ w₂ h₂ _
    apply Completes.bind (visits_assignTypes full pass (.typeInst _) w₂ (by simp))
    intro _ w₃ h₃ _
    refine .forM (fun _ _ _ hw h => h.mono hw) fun e he w₄ h₄ => ?_
    have he := (h₂.trans (h₃.trans h₄)).filled e (hbody e he)
    apply Completes.bind (completes_visit (visits_assignTypes full pass) he)
    intro _ w₅ h₅ he
    apply Completes.bind .model
    intro m w₆ h₆ _
    apply Completes.bind (.operand e)
    intro x w₇ h₇ _
    apply Completes.when (R := fun _ _ => True) (.fail _ _)
    intro w₈ h₈
    have he := he.mono (h₆.trans (h₇.trans h₈))
    apply Completes.bind (.coerce he _)
    intro e' w₉ h₉ he'
    exact (Completes.setBody he').mono fun _ _ h _ => he.mono (h₉.trans h)
  · intro _ w' hw' ha e he hf
    cases (hw'.completing hf).bodies f
    case inr hc => exact hc e he
    case inl hb => exact (ha e (by rw [← hb]; exact Option.mem_toList.mpr he)).complete hf

theorem completes_item {item : Item} {p : ItemPath} (hw : w.Formed full) (hp : w.itemAt? p = some item) :
    Completes full w (Typing.item pass item) fun _ w' =>
      ∀ s ∈ w'.itemValues item, full → w'.Complete s := by
  have hrooted := hw.rooted p item hp
  cases item
  case submodel | assign => exact .pure fun _ _ => by simp [itemValues]
  case constraint e | output e =>
    apply (completes_examine pass (hrooted e (by simp [itemSites]))).mono
    exact fun _ _ _ he => List.forall_mem_singleton.mpr he.complete
  case func f =>
    apply (completes_func pass hp).mono
    intro _ w₁ _ h s hs
    obtain ⟨e, he, rfl⟩ := List.mem_map.mp hs
    exact h e (Option.mem_toList.mp he)
  case solve goal ann =>
    have hann : ∀ a ∈ ann, w.kind a ≠ .anon := fun a ha => hrooted a (by simp [itemSites, ha])
    apply Completes.bind (completes_annotations (visits_assignTypes full pass) hann)
    intro _ w₁ h₁ _
    apply (Completes.forM (fun _ _ _ hw h => h.mono hw) fun e he w₂ h₂ => completes_examine pass
      ((h₁.trans h₂).filled e (hrooted e (List.mem_append_right _ (List.mem_map_of_mem he))))).mono
    exact fun _ _ _ h => List.forall_mem_map.mpr fun e he => (h e he).complete
  case decl d =>
    apply Completes.bind (visits_assignTypes full pass (.decl d) w (by simp))
    intro _ w₁ h₁ hd
    apply Completes.bind .model
    intro m w₂ h₂ _
    apply Completes.when (.report _ _)
    intro w₃ h₃
    apply (completes_finiteSet d).mono
    intro _ w₄ h₄ _
    refine List.forall_mem_singleton.mpr fun hf => ?_
    exact ((h₂.trans (h₃.trans h₄)).completing hf).complete _ (hd hf)

end Typing

section Attempts

theorem Completes.attempt {x : CheckM Unit} {P : Unit → Model → Prop} (hx : Completes full w x P) :
    Completes full w (CheckM.attempt x) fun _ _ => True := by
  refine fun c hw hc => ⟨?_, fun _ _ _ => trivial⟩
  have ⟨h, _⟩ := hx c hw hc
  cases hr : x c with
  | ok a c' =>
    have hr' : CheckM.attempt x c = .ok a c' := by simp [CheckM.attempt, hr]
    rwa [final_of_ok hr, ← final_of_ok hr'] at h
  | error err c' =>
    rw [final_of_error hr] at h
    cases err with
    | failed e =>
      have hr' : CheckM.attempt x c = .ok () { c' with errors := c'.errors.push e } := by
        simp [CheckM.attempt, hr]
      rw [final_of_ok hr']
      exact ⟨h.model, h.formed, Nat.le_trans h.errors (by simp)⟩
    | outOfFuel =>
      have hr' : CheckM.attempt x c = .error .outOfFuel c' := by simp [CheckM.attempt, hr]
      rwa [final_of_error hr']

-- With no error on record an attempt was a success.
theorem attempt_eq_ok {x : CheckM Unit} {c c' : Checking} (h : CheckM.attempt x c = .ok () c')
    (he : c'.errors.size = 0) : x c = .ok () c' := by
  rw [CheckM.attempt] at h
  split at h
  · cases h
    simp at he
  · exact h

-- Steps that may be attempts are the steps themselves, if there is no error at the end.
theorem forM_clean {f g : α → CheckM Unit} {as : List α} {c c' : Checking} (hw : w.Advances full c.model)
    (hc : c.model.Formed full)
    (hf : ∀ a ∈ as, ∀ w', w.Advances full w' → Completes full w' (f a) fun _ _ => True)
    (hfg : ∀ a c c', f a c = .ok () c' → c'.errors.size = 0 → g a c = .ok () c')
    (h : as.forM f c = .ok () c') (he : c'.errors.size = 0) : as.forM g c = .ok () c' := by
  induction as generalizing c with
  | nil => exact h
  | cons a as ih =>
    have ⟨_, c₁, h₁, h₂⟩ := bind_eq_ok.mp h
    have hrest := fun b hb => hf b (List.mem_cons_of_mem _ hb)
    have hadv := (hf a List.mem_cons_self c.model hw c (.refl _ _) hc).1
    rw [final_of_ok h₁] at hadv
    have hw₁ := hw.trans hadv.model
    have hle := (Completes.forM (P := fun _ _ => True) (fun _ _ _ _ _ => trivial)
      (fun b hb w' hw' => hrest b hb w' (hw₁.trans hw')) c₁ (.refl _ _) hadv.formed).1.errors
    rw [final_of_ok h₂] at hle
    exact bind_eq_ok.mpr ⟨_, c₁, hfg a c c₁ h₁ (by omega), ih hw₁ hadv.formed hrest h₂⟩

theorem checking_eq_ok {x : CheckM Unit} {errors : List TypeError} (h : ModelM.checking x m = .ok errors m') :
    ∃ c, x { model := m } = .ok () c ∧ c.errors.toList = errors ∧ c.model = m' := by
  simp only [ModelM.checking] at h
  split at h
  · next c hx =>
    cases h
    exact ⟨c, hx, rfl, rfl⟩
  · cases h

end Attempts

namespace Check

-- If all declarations succeed, the functions among them return known types.
theorem declareAll_clean {order : List DeclId} {fs : List FuncId} (hm : m.Formed False)
    (hfs : ∀ f ∈ fs, f.index < m.funcs.size) (h : ModelM.checking (declareAll order fs) m = .ok [] m') :
    m.Advances False m' ∧ m'.Formed False ∧ ∀ f ∈ fs, (m'.typeInst (m'.func f).ret).ty.Known := by
  obtain ⟨c, hx, he, rfl⟩ := checking_eq_ok h
  have ⟨_, c₁, h₁, h₂⟩ := bind_eq_ok.mp hx
  have hdecls : Completes False m (order.forM fun d => CheckM.attempt (Typing.declare .declare d))
      fun _ w' => ∀ d ∈ order, True :=
    .forM (fun _ _ _ _ _ => trivial) fun d _ _ _ => (Typing.completes_declare .declare d).attempt
  have hadv₁ := (hdecls { model := m } (.refl _ _) hm).1
  rw [final_of_ok h₁] at hadv₁
  let P : FuncId → Model → Prop := fun f w => f.index < w.funcs.size ∧ (w.typeInst (w.func f).ret).ty.Known
  have hfunc : ∀ f ∈ fs, ∀ w', c₁.model.Advances False w' →
      Completes False w' (Typing.declareFunc .declare f) fun _ => P f := by
    intro f hf w' hw'
    have hlt : f.index < w'.funcs.size := by
      rw [(hadv₁.model.trans hw').size]
      exact hfs f hf
    exact (Typing.completes_declareFunc .declare hlt).mono fun _ w₁ h₁ hk => ⟨h₁.size ▸ hlt, hk⟩
  have h₂ := forM_clean (.refl _ _) hadv₁.formed (fun f hf w' hw' => (hfunc f hf w' hw').attempt)
    (fun _ _ _ => attempt_eq_ok) h₂ (by simpa using congrArg List.length he)
  have hfuncs : Completes False c₁.model (fs.forM (Typing.declareFunc .declare)) fun _ w' =>
      ∀ f ∈ fs, P f w' :=
    .forM (fun f _ _ hw h => ⟨hw.size ▸ h.1, hw.rets f h.1 h.2⟩) hfunc
  have ⟨hadv₂, hret⟩ := hfuncs c₁ (.refl _ _) hadv₁.formed
  rw [final_of_ok h₂] at hadv₂
  exact ⟨hadv₁.model.trans hadv₂.model, hadv₂.formed, fun f hf => (hret _ c h₂ f hf).2⟩

theorem complete_itemValues {item : Item} (h : m.Completing m₁)
    (hi : ∀ s ∈ m.itemValues item, m.Complete s) : ∀ s ∈ m₁.itemValues item, m₁.Complete s := by
  intro s hs
  cases item
  case func f =>
    obtain ⟨e, he, rfl⟩ := List.mem_map.mp hs
    cases h.bodies f
    case inr hc => exact hc e (Option.mem_toList.mp he)
    case inl hb => exact h.complete _ (hi _ (List.mem_map_of_mem (hb ▸ he)))
  all_goals exact h.complete s (hi s hs)

-- The values of the item at a path are complete.
def CompleteAt (m : Model) (p : ItemPath) : Prop :=
  ∀ item, m.itemAt? p = some item → ∀ s ∈ m.itemValues item, m.Complete s

theorem CompleteAt.mono {p : ItemPath} (h : m.Advances True m₁) (hp : CompleteAt m p) : CompleteAt m₁ p :=
  fun item hi => complete_itemValues (h.completing trivial) (hp item ((h.itemAt_eq p).symm.trans hi))

-- The step of the checker at a path, without the recovery from an error.
def checkAt (p : ItemPath) : CheckM Unit := do
  match (← CheckM.model).slot? p with
  | some s => Typing.item .check s.item
  | none => pure ()

-- What is done with the item at a path, by a step that depends on it.
theorem completes_at {p : ItemPath} {f : Slot → CheckM Unit} {P : Unit → Model → Prop} (hp : m.IsItem p)
    (hw : m.Advances True w)
    (hf : ∀ w₁ s, w₁.Formed True → w₁.itemAt? p = some s.item → Completes True w₁ (f s) P) :
    Completes True w (do
      match (← CheckM.model).slot? p with
      | some s => f s
      | none => pure ()) P := by
  apply Completes.bind .model
  intro m₁ w₁ h₁ ⟨hm₁, hform⟩
  subst hm₁
  have ⟨s, hs, hrem⟩ := hp
  rw [← (hw.trans h₁).slot_eq] at hs
  rw [hs]
  exact hf w₁ s hform (by simp [itemAt?, hs, hrem])

theorem completes_item_at {p : ItemPath} {s : Slot} (hw : w.Formed True) (hp : w.itemAt? p = some s.item) :
    Completes True w (Typing.item .check s.item) fun _ w' => CompleteAt w' p := by
  refine (Typing.completes_item .check hw hp).mono fun _ w₁ h₁ hc item hi => ?_
  rw [h₁.itemAt_eq, hp] at hi
  cases hi
  exact fun s hs => hc s hs trivial

theorem checkAll_clean (hm : m.Formed True) (h : ModelM.checking checkAll m = .ok [] m') :
    m.Advances True m' ∧ m'.Formed True ∧ ∀ p ∈ m.itemPaths, CompleteAt m' p := by
  obtain ⟨c, hx, he, rfl⟩ := checking_eq_ok h
  have hx : (m.itemPaths.forM fun p => do
      match (← CheckM.model).slot? p with
      | some s => CheckM.attempt (Typing.item .check s.item)
      | none => pure ()) { model := m } = .ok () c := hx
  have hx : m.itemPaths.forM checkAt { model := m } = .ok () c := by
    refine forM_clean (.refl _ _) hm (fun p hp w hw => ?_) (fun p c c' hx he => ?_) hx
      (by simpa using congrArg List.length he)
    · exact completes_at (isItem_of_mem hp) hw fun w₁ s hf hat => (completes_item_at hf hat).attempt
    · have ⟨m₁, c₁, hm₁, hx⟩ := bind_eq_ok.mp hx
      refine bind_eq_ok.mpr ⟨m₁, c₁, hm₁, ?_⟩
      cases hs : m₁.slot? p with
      | none =>
        rw [hs] at hx
        exact hx
      | some s =>
        rw [hs] at hx
        exact attempt_eq_ok hx he
  have hall : Completes True m (m.itemPaths.forM checkAt) fun _ w' => ∀ p ∈ m.itemPaths, CompleteAt w' p :=
    .forM (fun _ _ _ hw h => h.mono hw) fun p hp w hw =>
      completes_at (isItem_of_mem hp) hw fun _ _ => completes_item_at
  have ⟨hadv, hc⟩ := hall { model := m } (.refl _ _) hm
  rw [final_of_ok hx] at hadv
  exact ⟨hadv.model, hadv.formed, hc _ c hx⟩

theorem completes_defined (allowUndefined : Bool) (d : DeclId) :
    Completes full w (defined allowUndefined d) fun _ _ => True := by
  apply Completes.bind .model
  intro m w₁ _ _
  dsimp only
  split
  · exact .pure fun _ _ => trivial
  · split
    · refine .changeModel fun m _ hm => ?_
      let x : Expr := { kind := .absent, ty := Ty.bot.withOpt true }
      have hx : m.Addable full x := by
        have hknown : x.ty.Known := by simp [x, Ty.Known, Ty.withOpt, Ty.bot, Ty.of]
        exact ⟨by simp [x], by simp [x], rfl, fun _ => hknown, by simp [x, ExprKind.parts],
          fun _ => ⟨⟨trivial, by simp [x, ExprKind.parts]⟩, hknown⟩⟩
      have hu := usable_addExpr hx
      exact ⟨(advances_addExpr hx).trans (advances_setInit hu), formed_setInit hu.filled (formed_addExpr hx hm),
        trivial⟩
    · split
      · exact .report _ _
      · exact .pure fun _ _ => trivial

theorem mem_funcs {paths : List ItemPath} {f : FuncId} (hp : ∀ p ∈ paths, m.IsItem p) :
    f ∈ funcs m paths ↔ ∃ p ∈ paths, m.itemAt? p = some (.func f) := by
  rw [funcs, List.mem_filterMap]
  refine exists_congr fun p => and_congr_right fun hmem => ?_
  obtain ⟨s, hs, hrem⟩ := hp p hmem
  cases hi : s.item <;> simp [itemAt?, hs, hrem, hi]

-- The model that is left by resolution, for all items that there are.
theorem prepared_items {m₀ : Model} {r : Resolution} (hm : m.Constructed) (hs : Stocked m m₀)
    (h : resolveItems m₀.itemPaths { model := m₀ } = .ok () r) :
    Prepared m₀ (funcs m₀ m₀.itemPaths) r.model := by
  have hmem := fun f => mem_funcs (f := f) fun p => isItem_of_mem (m := m₀) (p := p)
  refine Prepared.resolved ⟨hm.formed hs, rfl, rfl, fun f hf => ?_⟩ (fun p hp f hf => ?_) h
  · have ⟨hlt, hret⟩ := hm.registered hs hf
    exact hret.imp (⟨hlt, ·⟩) (hmem f).mpr
  · exact (hmem f).mpr ⟨p, hp, hf⟩

end Check

section Check

variable {opts : CheckOptions} {report : Report}

theorem stocked_of_check (h : check opts m = .ok report m') :
    ∃ m₀, Stocked m m₀ ∧ Check.items opts.allowUndefined m₀ = .ok report m' := by
  rw [check] at h
  split at h
  · exact ⟨m.withLibrary, .withLibrary m, h⟩
  · exact ⟨m, .refl m, h⟩

-- The stages of typing on a model that is prepared for it.
theorem Prepared.typed {m₀ m₂ : Model} {fs : List FuncId} {order : List DeclId} {allowUndefined : Bool}
    (hp : Prepared m₀ fs m) (hfs : ∀ f ∈ fs, f.index < m₀.funcs.size)
    (h₁ : ModelM.checking (Check.declareAll order fs) m = .ok [] m₁)
    (h₂ : ModelM.checking Check.checkAll m₁ = .ok [] m₂)
    (h₃ : ModelM.checking (order.forM (Check.defined allowUndefined)) m₂ = .ok [] m') :
    ∀ p ∈ m'.itemPaths, Check.CompleteAt m' p := by
  obtain ⟨ha₁, hf₁, hret⟩ := Check.declareAll_clean hp.formed (hp.funcs ▸ hfs) h₁
  -- All functions that can be found now return known types.
  have hf₁ : m₁.Formed True := by
    refine ⟨hf₁.constants, hf₁.filled, hf₁.rooted, hf₁.own, fun _ f hf => ?_⟩
    have hf := ha₁.registered_iff.mp hf
    cases hp.registered f hf
    case inr hmem => exact hret f hmem
    case inl hk =>
      refine ha₁.rets f (hp.funcs ▸ hk.1) ?_
      rw [typeInst, func, hp.typeInsts, hp.funcs]
      exact hk.2
  obtain ⟨ha₂, hf₂, hall⟩ := Check.checkAll_clean hf₁ h₂
  obtain ⟨c, hx, _, rfl⟩ := checking_eq_ok h₃
  have hdef : Completes True m₂ (order.forM (Check.defined allowUndefined)) fun _ _ => ∀ d ∈ order, True :=
    .forM (fun _ _ _ _ _ => trivial) fun d _ _ _ => Check.completes_defined allowUndefined d
  have ha₃ := (hdef { model := m₂ } (.refl _ _) hf₂).1.model
  rw [final_of_ok hx] at ha₃
  have hpaths : c.model.itemPaths = m₁.itemPaths :=
    itemPaths_congr (ha₃.items.trans ha₂.items) (ha₃.submodels.trans ha₂.submodels)
  exact fun p hp => (hall p (hpaths ▸ hp)).mono ha₃

-- After a check without errors all values of items are typed and resolved.
theorem clean_check_complete (hm : m.Constructed) (h : check opts m = .ok report m')
    (he : report.errors = []) :
    ∀ p ∈ m'.itemPaths, ∀ item, m'.itemAt? p = some item → ∀ s ∈ m'.itemValues item, m'.Complete s := by
  have ⟨m₀, hs, h⟩ := stocked_of_check h
  have ⟨r, hr, _, e₁, e₂, e₃, m₁, m₂, h₁, h₂, h₃, herr⟩ := items_eq_ok h
  simp only [he, List.nil_eq, List.append_eq_nil_iff] at herr
  obtain ⟨⟨⟨-, rfl⟩, rfl⟩, rfl⟩ := herr
  have hprep := (Check.prepared_items hm hs hr).sorted report.order
  refine hprep.typed (fun f hf => ?_) h₁ h₂ h₃
  have ⟨p, _, hf⟩ := (Check.mem_funcs fun _ => isItem_of_mem).mp hf
  exact Nat.lt_of_lt_of_le (hm.funcs p f (hs.itemAt_eq p ▸ hf)) hs.funcs.length_le

end Check

section Coerced

-- `function int: bool2int(bool: b)` and `int: a = true`.
def promotedModel : Model where
  exprs := #[{ kind := .bool true, ty := .parBool }]
  decls := #[{ name := "b", ti := ⟨0⟩ }, { name := "a", ti := ⟨2⟩, init := some ⟨0⟩, toplevel := true }]
  typeInsts := #[{ ty := .parBool }, { ty := .parInt }, { ty := .parInt }]
  funcs := #[{ name := "bool2int", params := [⟨0⟩], ret := ⟨1⟩ }]
  items := #[{ item := .func ⟨0⟩ }, { item := .decl ⟨1⟩ }]

-- The same after a check: the value of `a` is a call.
def promotedChecked : Model where
  exprs := #[{ kind := .bool true, ty := .parBool },
    { kind := .call "bool2int" [⟨0⟩] (some ⟨0⟩), ty := .parInt }]
  decls := #[{ name := "b", ti := ⟨0⟩, ty := .parBool },
    { name := "a", ti := ⟨2⟩, init := some ⟨1⟩, toplevel := true, ty := .parInt }]
  typeInsts := #[{ ty := .parBool }, { ty := .parInt }, { ty := .parInt }]
  funcs := #[{ name := "bool2int", params := [⟨0⟩], ret := ⟨1⟩ }]
  overloads := [("bool2int", [⟨0⟩])]
  items := #[{ item := .decl ⟨1⟩ }, { item := .func ⟨0⟩ }]

theorem item_promoted {p : ItemPath} {item : Item} (h : promotedModel.itemAt? p = some item) :
    item = .func ⟨0⟩ ∨ item = .decl ⟨1⟩ := by
  match p, h with
  | ⟨none, 0⟩, h => exact .inl (Option.some.inj h).symm
  | ⟨none, 1⟩, h => exact .inr (Option.some.inj h).symm
  | ⟨none, _ + 2⟩, h => cases h
  | ⟨some _, _⟩, h => cases h

theorem constructed_promoted : promotedModel.Constructed where
  constants
    | ⟨0⟩, _ => by decide
    | ⟨_ + 1⟩, h => by cases h
  named
    | ⟨0⟩, _ => fun h => by cases h
    | ⟨_ + 1⟩, he => absurd he (by simp [promotedModel])
  present
    | .expr ⟨i⟩, hs => (by decide : ∀ i < 1, ∀ c ∈ promotedModel.parts (.expr ⟨i⟩), promotedModel.Present c) i hs
    | .decl ⟨i⟩, hs => (by decide : ∀ i < 2, ∀ c ∈ promotedModel.parts (.decl ⟨i⟩), promotedModel.Present c) i hs
    | .typeInst ⟨i⟩, hs =>
      (by decide : ∀ i < 3, ∀ c ∈ promotedModel.parts (.typeInst ⟨i⟩), promotedModel.Present c) i hs
  items p item hp := by
    obtain rfl | rfl := item_promoted hp
    all_goals decide
  funcs p f hp := by
    cases item_promoted hp
    case inl h =>
      cases h
      decide
    case inr h => cases h
  generators
    | ⟨0⟩, _, h => by cases h
    | ⟨_ + 1⟩, _, h => by cases h
  table f hf := by
    have ⟨_, _, hmem, _⟩ := hf
    cases hmem

theorem clean_check_complete_promoted :
    check { library := false } promotedModel = .ok ⟨[], [⟨0⟩, ⟨1⟩]⟩ promotedChecked ∧
      promotedChecked.Complete (.decl ⟨1⟩) ∧ promotedChecked.Finished ⟨1⟩ := by
  have hx : check { library := false } promotedModel = .ok ⟨[], [⟨0⟩, ⟨1⟩]⟩ promotedChecked := by cbv
  have hc := clean_check_complete constructed_promoted hx rfl ⟨none, 0⟩ (by decide) _ rfl (.decl ⟨1⟩) (by decide)
  exact ⟨hx, hc, hc ⟨1⟩ (.single (by decide))⟩

end Coerced
end Parvar
