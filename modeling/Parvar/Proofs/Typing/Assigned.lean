import Parvar.Proofs.Typing.Completion

/-!
Assigning types completes what it visits. Each rule finds a known type if the types of the parts are
known, so a visit that ends well leaves the expression with a type and all that it is made of complete.
-/

namespace Parvar

open Model

namespace Rules

variable {t u : Ty} {whole : Span}

theorem known_setLit (h : setLit whole t = .ok u) (ht : t.Known) : u.Known := by
  rw [setLit] at h
  split at h
  · split at h
    · cases h
      simp [Ty.Known, Ty.withBase]
    · cases h
  · cases h
    exact ht

theorem known_arrayLit (h : arrayLit whole t = .ok u) (ht : t.Known) : u.Known := by
  rw [arrayLit] at h
  split at h
  · split at h
    · cases h
      simp [Ty.Known, Ty.withBase]
    · cases h
  · cases h
    exact ht

theorem base_generated {x : Operand} (h : generated x = .ok t) : t.base = .int ∨ t.base = x.ty.base := by
  rw [generated] at h
  split at h
  · cases h
  · split at h
    · cases h
      exact .inl rfl
    · cases h
      exact .inr rfl

theorem known_generated {x : Operand} (h : generated x = .ok t) (hx : x.ty.Known) : t.Known := by
  rw [Ty.Known]
  obtain hb | hb := base_generated h
  · simp [hb]
  · exact hb ▸ hx

-- Sources and guards leave the base of the body as it is.
theorem base_comp {isSet : Bool} {body : Operand} {sources : List Ty} {guard : Option Operand}
    (h : comp isSet body sources guard = .ok t) : t.base = body.ty.base := by
  have hsources : (sources.foldl
      (fun t s => markedBy (if s.same .varSetInt then uncertain t else t) s) body.ty).base = body.ty.base := by
    refine List.foldlRecOn (motive := fun t : Ty => t.base = body.ty.base) _ _ rfl fun t ht s _ => ?_
    rw [base_markedBy]
    split <;> exact ht
  generalize hbase : sources.foldl
    (fun t s => markedBy (if s.same .varSetInt then uncertain t else t) s) body.ty = base at hsources
  have htail : ∀ v : Ty, v.base = body.ty.base → (do
      if isSet then
        if body.ty.dim ≠ 0 || body.ty.isSet then raise (.setBodyTy body.ty) body.span
        return v.withSet true
      else
        if body.ty.dim ≠ 0 then raise .arrayBody body.span
        return v.withDim 1 : Except TypeError Ty) = .ok t → t.base = body.ty.base := by
    intro v hv h
    split at h
    all_goals
      split at h
      · cases h
      · cases h
        exact hv
  simp only [comp, hbase] at h
  cases guard with
  | none => exact htail _ hsources h
  | some g =>
    simp only at h
    split at h
    · exact htail (markedBy (uncertain base) g.ty) ((base_markedBy _ _).trans hsources) h
    · split at h
      · exact htail (markedBy base g.ty) ((base_markedBy _ _).trans hsources) h
      · cases h

theorem known_comp {isSet : Bool} {body : Operand} {sources : List Ty} {guard : Option Operand}
    (h : comp isSet body sources guard = .ok t) (hb : body.ty.Known) : t.Known := by
  rw [Ty.Known, base_comp h]
  exact hb

-- What a conditional is typed with so far is known, and no branch was anonymous.
theorem known_otherwise {x : Operand} {c : Conditional} (h : otherwise x = .ok c) (hx : x.isAnon = false) :
    c.ty.Known := by
  simp only [otherwise, hx, Bool.not_false, Bool.and_true] at h
  split at h
  · cases h
  · next hk =>
    cases h
    exact Ty.known_iff.mpr hk

theorem known_condition {x : Operand} {c c' : Conditional} (h : condition c x = .ok c') (hc : c.ty.Known) :
    c'.ty.Known := by
  simp only [condition] at h
  split at h
  · split at h
    · cases h
    · split at h
      · cases h
      · cases h
        exact known_markedBy.mpr hc
  · split at h
    · cases h
    · cases h
      exact known_markedBy.mpr hc

theorem known_branch {x : Operand} {c c' : Conditional} (h : branch c x = .ok c') (hc : c.ty.Known) :
    c'.ty.Known := by
  simp only [branch] at h
  split at h
  · split at h
    · cases h
    · cases h
      exact hc
  · next hk =>
    have hx : x.ty.Known := Ty.known_iff.mpr hk
    have hbase : ∀ {p : Prop} [Decidable p] {u : Ty}, u.Known →
        (if p then u.withBase x.ty.base else u).Known := by
      intro p _ u hu
      split
      · exact hx
      · exact hu
    generalize ht : (if c.ty.isBot || c.ty.isUnknown then c.ty.withBase x.ty.base else c.ty) = t at h
    have htk : t.Known := ht ▸ hbase hc
    split at h
    · cases h
    · cases h
      exact known_markedBy.mpr (hbase htk)

theorem known_conditional {branches : List (Operand × Operand)} {last : Operand} {c : Conditional}
    (h : conditional branches last = .ok c) (hl : last.isAnon = false) : c.ty.Known := by
  rw [conditional, except_bind_eq_ok] at h
  obtain ⟨c₀, h₀, h⟩ := h
  replace h₀ := known_otherwise h₀ hl
  induction branches generalizing c₀ with
  | nil =>
    cases h
    exact h₀
  | cons b branches ih =>
    rw [List.foldlM_cons] at h
    have ⟨c₂, h₂, h⟩ := except_bind_eq_ok.mp h
    have ⟨c₁, h₁, h₂⟩ := except_bind_eq_ok.mp h₂
    exact ih _ h (known_branch h₂ (known_condition h₁ h₀))

theorem known_result {c : Conditional} : c.result.Known ↔ c.ty.Known := by
  simp only [Conditional.result]
  split <;> split <;> rfl

end Rules

variable {full : Prop} {w w₁ : Model} {e : ExprId}

-- The parts of an expression have been visited.
theorem Model.Assembled.of_exprs {k : ExprKind} (es : List ExprId) (h : w.Advances full w₁)
    (hk : w.kind e = k) (hp : k.parts Generator.uses = es.map .expr) (ha : k.isAnon = false)
    (hc : k.isConstant = false) (hl : w₁.Linked k) (hes : ∀ a ∈ es, w₁.Usable full a) :
    w₁.Assembled full e := by
  have hne : w.kind e ≠ .anon := by
    rw [hk]
    rintro rfl
    cases ha
  refine ⟨h.filled e hne, h.compound e hne (by simp [hk, hc]), fun hf => ?_⟩
  refine (h.completing hf).made_kind (hk ▸ ⟨hl, ?_⟩)
  rw [hp]
  exact List.forall_mem_map.mpr fun a hm => (hes a hm).complete hf

theorem Model.Usable.known {a : ExprId} (h : w.Usable full a) (hf : full) : (w.ty a).Known :=
  (h.complete hf a .refl).known

-- A type that is known may be set anywhere.
theorem Completes.setKnown {t u : Ty} (e : ExprId) (h : u.Known) (ht : t.base = u.base := by rfl) :
    Completes full w (CheckM.setTy e t) fun _ _ => True :=
  have h : t.Known := by rwa [Ty.Known, ht]
  (Completes.setTy (fun _ => h) (.inl h)).mono fun _ _ _ _ => trivial

-- A kind that is made of expressions.
theorem Model.settable_exprs {k : ExprKind} {es : List ExprId} (hp : ∀ gen, k.parts gen = es.map .expr)
    (ha : k.isAnon = false) (hc : k.isConstant = false) (hcomp : ∀ c, k ≠ .comp c)
    (hl : full → w.Linked k) (hes : ∀ a ∈ es, w.Usable full a) : w.Settable full k where
  anon := by
    rintro rfl
    cases ha
  compound := by simp [hc]
  comp := hcomp
  filled a hm := by
    rw [hp] at hm
    exact (hes a (by simpa using hm)).filled
  made hf := by
    refine ⟨hl hf, ?_⟩
    rw [hp]
    exact List.forall_mem_map.mpr fun a hm => (hes a hm).complete hf

namespace Typing

section Literals

theorem completes_setLit {elems : List ExprId} (h : w.Assembled full e) (hs : ∀ a ∈ elems, w.Usable full a) :
    Completes full w (setLit e elems) fun _ w' => full → w'.Typed e := by
  apply Completes.bind .model
  intro m w₁ h₁ _
  apply Completes.bind (.ofExcept _)
  intro t w₂ h₂ _
  split
  · exact .assemble (h.mono (h₁.trans h₂)) fun _ => by simp [Ty.Known, Ty.withBase]
  · next hk =>
    apply Completes.bind (.ofExcept _)
    intro u w₃ h₃ hu
    have hknown : u.Known := Rules.known_setLit hu (Ty.known_iff.mpr hk)
    have hw₃ := h₁.trans (h₂.trans h₃)
    apply Completes.bind (.coerceAll (fun a ha => (hs a ha).mono hw₃) u)
    intro es w₄ h₄ hes
    have hset : w₄.Settable full (.setLit es) :=
      settable_exprs (fun _ => rfl) rfl rfl (by simp) (fun _ => trivial) hes
    exact .setNode ((h.mono (hw₃.trans h₄)).filled) hset fun _ => hknown

theorem completes_arrayLit {elems : List ExprId} {dims : List (Int64 × Int64)} (h : w.Assembled full e)
    (hs : ∀ a ∈ elems, w.Usable full a) :
    Completes full w (arrayLit e elems dims) fun _ w' => full → w'.Typed e := by
  apply Completes.bind .model
  intro m w₁ h₁ _
  apply Completes.bind (.ofExcept _)
  intro t w₂ h₂ _
  split
  · apply Completes.when (R := fun _ _ => True) (.fail _ _)
    exact fun w₃ h₃ => .assemble (h.mono (h₁.trans (h₂.trans h₃))) fun _ => by simp [Ty.Known, Ty.withBase]
  · next hk =>
    apply Completes.bind (.ofExcept _)
    intro u w₃ h₃ hu
    have hknown : u.Known := Rules.known_arrayLit hu (Ty.known_iff.mpr hk)
    apply Completes.bind (.forM (fun _ _ _ _ _ => trivial) fun x _ _ _ => .setKnown x.id hknown)
    intro _ w₄ h₄ _
    have hw₄ := h₁.trans (h₂.trans (h₃.trans h₄))
    apply Completes.bind (.coerceAll (fun a ha => (hs a ha).mono hw₄) u.elem)
    intro es w₅ h₅ hes
    have hset : w₅.Settable full (.arrayLit es dims) :=
      settable_exprs (fun _ => rfl) rfl rfl (by simp) (fun _ => trivial) hes
    exact .setNode ((h.mono (hw₄.trans h₅)).filled) hset fun _ => hknown

end Literals

section Access

theorem completes_index {i : ExprId} {t : Ty} (hi : w.Usable full i) :
    Completes full w (index t i) fun r w' => w'.Usable full r.1 ∧ (t.Known → r.2.Known) := by
  have hint : Ty.varInt.Known := by simp [Ty.Known, Ty.varInt, Ty.of]
  apply Completes.bind (.operand i)
  intro x w₁ h₁ _
  apply Completes.when (.setKnown i hint)
  intro w₂ h₂
  apply Completes.bind (.operand i)
  intro x w₃ h₃ _
  apply Completes.when (R := fun _ _ => True) (.fail _ _)
  intro w₄ h₄
  apply Completes.bind (.coerce (hi.mono (h₁.trans (h₂.trans (h₃.trans h₄)))) _)
  intro a w₅ h₅ ha
  refine .pure fun w₆ h₆ => ⟨ha.mono h₆, fun ht => Rules.known_markedBy.mpr ?_⟩
  split <;> split <;> exact ht

theorem completes_accessed {a : ExprId} (ha : w.Usable full a) :
    Completes full w (accessed a) fun b w' => w'.Usable full b := by
  apply Completes.bind (.operand a)
  intro x w₁ h₁ _
  split
  · apply Completes.when (R := fun _ _ => True) (.fail _ _)
    exact fun w₂ h₂ => .coerce (ha.mono (h₁.trans h₂)) _
  · exact .pure fun w₂ h₂ => ha.mono (h₁.trans h₂)

theorem completes_access {array : ExprId} {indices : List ExprId} (he : w.kind e ≠ .anon)
    (hs : ∀ a ∈ array :: indices, w.Usable full a) :
    Completes full w (access e array indices) fun _ w' => full → w'.Typed e := by
  have ⟨ha, hi⟩ := List.forall_mem_cons.mp hs
  apply Completes.bind (completes_accessed ha)
  intro array w₁ h₁ ha
  apply Completes.bind (.operand array)
  intro x w₂ h₂ hx
  apply Completes.when (R := fun _ _ => True) (.fail _ _)
  intro w₃ h₃
  -- The indices that are done can be used, and the type so far is known.
  let Q : List ExprId × Ty → Model → Prop := fun r w' =>
    (∀ i ∈ r.1, w'.Usable full i) ∧ (full → r.2.Known)
  have hQ : ∀ r w w', w.Advances full w' → Q r w → Q r w' := fun _ _ _ hw hr =>
    ⟨fun i hi => (hr.1 i hi).mono hw, hr.2⟩
  have hnil : Q ([], x.ty.elem) w₃ := ⟨by simp, fun hf => by rw [hx]; exact (ha.mono h₂).known hf⟩
  apply Completes.bind (Completes.foldlM hQ hnil _)
  · intro r w₄ h₄ hr
    have hw₄ := h₂.trans (h₃.trans h₄)
    have hset : w₄.Settable full (.access array r.1) :=
      settable_exprs (fun _ => rfl) rfl rfl (by simp) (fun _ => trivial)
        (List.forall_mem_cons.mpr ⟨ha.mono hw₄, hr.1⟩)
    exact .setNode ((h₁.trans hw₄).filled e he) hset hr.2
  · intro r i hmem w₄ h₄ hr
    apply Completes.bind (completes_index ((hi i hmem).mono (h₁.trans (h₂.trans (h₃.trans h₄)))))
    intro b w₅ h₅ hb
    refine .pure fun w₆ h₆ => ⟨fun j hj => ?_, fun hf => hb.2 (hr.2 hf)⟩
    cases List.mem_append.mp hj
    case inl hj => exact (hr.1 j hj).mono (h₅.trans h₆)
    case inr hj =>
      cases List.mem_singleton.mp hj
      exact hb.1.mono h₆

end Access

section Calls

theorem completes_ite {branches : List (ExprId × ExprId)} {otherwise : ExprId} (he : w.kind e ≠ .anon)
    (hb : ∀ b ∈ branches, w.Usable full b.1 ∧ w.Usable full b.2) (ho : w.Usable full otherwise) :
    Completes full w (ite e branches otherwise) fun _ w' => full → w'.Typed e := by
  apply Completes.bind .model
  rintro m w₁ h₁ ⟨hm, _⟩
  apply Completes.bind (.ofExcept _)
  intro c w₂ h₂ hc
  have hknown : c.ty.Known := by
    refine Rules.known_conditional hc ?_
    have hne := (ho.mono h₁).filled
    rw [hm] at hne
    cases hk : m.kind otherwise <;> simp_all [Model.operand, Model.kind, ExprKind.isAnon]
  apply Completes.bind (.forM (fun _ _ _ _ _ => trivial) fun a _ _ _ => .setKnown a hknown)
  intro _ w₃ h₃ _
  have hw₃ := h₁.trans (h₂.trans h₃)
  let Q : ExprId × ExprId → Model → Prop := fun b w' => w'.Usable full b.1 ∧ w'.Usable full b.2
  have hQ : ∀ b w w', w.Advances full w' → Q b w → Q b w' := fun _ _ _ hw h => ⟨h.1.mono hw, h.2.mono hw⟩
  apply Completes.bind (Completes.mapM hQ _)
  · rintro branches w₄ h₄ ⟨_, hb⟩
    apply Completes.bind (.coerce (ho.mono (hw₃.trans h₄)) _)
    intro otherwise w₅ h₅ ho
    have hb : ∀ b ∈ branches, Q b w₅ := fun b hm => hQ b _ _ h₅ (hb b hm)
    have hset : w₅.Settable full (.ite branches otherwise) := by
      have hes : ∀ a ∈ branches.flatMap (fun b => [b.1, b.2]) ++ [otherwise], w₅.Usable full a := by
        intro a ha
        cases List.mem_append.mp ha
        case inr ha => exact List.mem_singleton.mp ha ▸ ho
        case inl ha =>
          obtain ⟨b, hmem, ha⟩ := List.mem_flatMap.mp ha
          have ha : a = b.1 ∨ a = b.2 := by simpa using ha
          exact ha.elim (· ▸ (hb b hmem).1) (· ▸ (hb b hmem).2)
      exact settable_exprs (by simp [ExprKind.parts, List.map_flatMap]) rfl rfl (by simp) (fun _ => trivial) hes
    have he := (hw₃.trans (h₄.trans h₅)).filled e he
    apply Completes.bind (.setKind he hset)
    intro _ w₆ h₆ hnode
    split
    · apply Completes.bind .model
      exact fun _ _ _ _ => Completes.bind (P := fun _ _ => False) (.fail _ _) fun _ _ _ h => h.elim
    · exact .assemble hnode fun _ => Rules.known_result.mpr hknown
  · intro b hmem w₄ h₄
    have hb := hQ b _ _ (hw₃.trans h₄) (hb b hmem)
    apply Completes.bind (.coerce hb.2 _)
    exact fun a w₅ h₅ ha => .pure fun w₆ h₆ => ⟨hb.1.mono (h₅.trans h₆), ha.mono h₆⟩

variable {args : List ExprId}

-- As many arguments as before, and a known type for the call.
theorem completes_applied {f : FuncId} {tys : List Ty} (hf : w.Registered f)
    (hp : (w.func f).params.length = tys.length) (hty : tys.length = args.length)
    (hs : ∀ a ∈ args, w.Usable full a) :
    Completes full w (applied e f args tys) fun r w' =>
      (w'.func f).params.length = r.1.length ∧ (∀ a ∈ r.1, w'.Usable full a) ∧ (full → r.2.Known) := by
  apply Completes.bind .model
  intro m w₁ h₁ ⟨hm, _⟩
  have hlen : (args.zip (m.argTys f tys)).length = args.length := by
    rw [List.length_zip, argTys, List.length_map, List.length_zip, ← hm, (h₁.func f).1]
    omega
  let Q : ExprId → Model → Prop := fun a w' => w'.Usable full a
  apply Completes.bind (Completes.mapM (fun a _ _ hw (h : Q a _) => h.mono hw) _)
  · intro args' w₂ h₂ ⟨hl, hargs⟩
    apply Completes.bind .model
    intro m₃ w₃ h₃ ⟨hm₃, hform⟩
    subst hm₃
    apply Completes.bind (.ofExcept _)
    intro t w₄ h₄ ht
    have hw₃ := h₁.trans (h₂.trans h₃)
    refine .pure fun w₅ h₅ => ⟨?_, fun a ha => (hargs a ha).mono (h₃.trans (h₄.trans h₅)), fun hfull => ?_⟩
    · rw [((hw₃.trans (h₄.trans h₅)).func f).1]
      exact (hp.trans hty).trans (hlen.symm.trans hl.symm)
    · have hret := hform.tabled hfull f (hw₃.registered_iff.mpr hf)
      have hknown : t.Known := known_returnTy ht hret
        (List.forall_mem_map.mpr fun a ha => ((hargs a ha).mono h₃).known hfull)
      exact hknown
  · intro a ha w₂ h₂
    exact .coerce ((hs a.1 (List.of_mem_zip ha).1).mono (h₁.trans h₂)) a.2

theorem completes_bin {op : BinOp} {lhs rhs : ExprId} (h : w.Assembled full e)
    (hs : ∀ a ∈ [lhs, rhs], w.Usable full a) :
    Completes full w (bin e op lhs rhs) fun _ w' => full → w'.Typed e := by
  apply Completes.bind .model
  intro m w₁ h₁ ⟨hm, _⟩
  subst hm
  split
  · exact .fail _ _
  · next f hf =>
    have ⟨hreg, hlen⟩ := matchOverload_eq_some hf
    apply Completes.bind (completes_applied hreg hlen rfl fun a ha => (hs a ha).mono h₁)
    intro ⟨args, t⟩ w₂ h₂ ⟨_, hargs, ht⟩
    have he := h.mono (h₁.trans h₂)
    dsimp only
    split
    · apply Completes.bind .model
      intro m₃ w₃ h₃ _
      have hset : w₃.Settable full (.bin op _ _ (m₃.withBody? (some f))) :=
        settable_exprs (fun _ => rfl) rfl rfl (by simp) (fun _ => trivial) fun a ha => (hargs a ha).mono h₃
      exact .setNode (he.mono h₃).filled hset ht
    · exact .assemble he ht

theorem completes_un {op : UnOp} {arg : ExprId} (h : w.Assembled full e) (hs : w.Usable full arg) :
    Completes full w (un e op arg) fun _ w' => full → w'.Typed e := by
  apply Completes.bind .model
  intro m w₁ h₁ ⟨hm, _⟩
  subst hm
  split
  · exact .fail _ _
  · next f hf =>
    have ⟨hreg, hlen⟩ := matchOverload_eq_some hf
    apply Completes.bind (completes_applied hreg hlen rfl (List.forall_mem_singleton.mpr (hs.mono h₁)))
    intro ⟨args, t⟩ w₂ h₂ ⟨_, hargs, ht⟩
    have he := h.mono (h₁.trans h₂)
    dsimp only
    split
    · apply Completes.bind .model
      intro m₃ w₃ h₃ _
      have hset : w₃.Settable full (.un op _ (m₃.withBody? (some f))) :=
        settable_exprs (fun _ => rfl) rfl rfl (by simp) (fun _ => trivial) fun a ha => (hargs a ha).mono h₃
      exact .setNode (he.mono h₃).filled hset ht
    · exact .assemble he ht

theorem completes_call {name : String} (he : w.kind e ≠ .anon) (hs : ∀ a ∈ args, w.Usable full a) :
    Completes full w (call e name args) fun _ w' => full → w'.Typed e := by
  apply Completes.bind .model
  intro m w₁ h₁ ⟨hm, _⟩
  subst hm
  dsimp only
  split
  · exact .fail _ _
  · next f hf =>
    have ⟨hreg, hlen⟩ := matchOverload_eq_some hf
    apply Completes.bind (completes_applied hreg hlen (by simp) fun a ha => (hs a ha).mono h₁)
    intro r w₂ h₂ ⟨hl, hargs, ht⟩
    have hset : w₂.Settable full (.call name r.1 (some f)) :=
      settable_exprs (fun _ => rfl) rfl rfl (by simp) (fun _ => ⟨f, rfl, hl⟩) hargs
    exact .setNode ((h₁.trans h₂).filled e he) hset ht

end Calls

section Walk

-- What a visit achieves. That of a type-inst may not last while functions are not known yet.
def Visited (full : Prop) (w : Model) : Site → Prop
  | .expr e => w.Usable full e
  | .decl d => full → w.Complete (.decl d)
  | .typeInst t => (w.typeInst t).ty.Known

-- Visits are to nodes that are there, and to no anonymous variable.
def Visits (full : Prop) (visit : Visit) : Prop :=
  ∀ s w, (∀ e, s = .expr e → w.kind e ≠ .anon) → Completes full w (visit s) fun _ w' => Visited full w' s

variable {visit : Visit} (hv : Visits full visit)

include hv

theorem completes_visit {a : ExprId} (ha : w.kind a ≠ .anon) :
    Completes full w (visit (.expr a)) fun _ w' => w'.Usable full a :=
  hv (.expr a) w fun e he => by cases he; exact ha

theorem completes_exprs {es : List ExprId} (hs : ∀ a ∈ es, w.kind a ≠ .anon) :
    Completes full w (exprs visit es) fun _ w' => ∀ a ∈ es, w'.Usable full a :=
  .forM (fun _ _ _ hw h => h.mono hw) fun a ha _ hw => completes_visit hv (hw.filled a (hs a ha))

theorem completes_annotations {es : List ExprId} (hs : ∀ a ∈ es, w.kind a ≠ .anon) :
    Completes full w (annotations visit es) fun _ w' => ∀ a ∈ es, w'.Usable full a := by
  refine .forM (fun _ _ _ hw h => h.mono hw) fun a ha w₁ h₁ => ?_
  apply Completes.bind (completes_visit hv (h₁.filled a (hs a ha)))
  intro _ w₂ h₂ ha
  apply Completes.bind (.operand a)
  intro x w₃ h₃ _
  split
  · exact .fail _ _
  · exact .pure fun w₄ h₄ => ha.mono (h₃.trans h₄)

-- The type-inst of a generator's name may be given a type that is not known yet.
theorem completes_generator {g : Generator} (hs : w.kind g.source ≠ .anon)
    (ho : ∀ d ∈ g.decls, ∀ f, f.index < w.funcs.size → (w.decl d).ti ≠ (w.func f).ret) :
    Completes full w (generator visit g) fun _ w' => w'.Usable full g.source := by
  apply Completes.bind (completes_visit hv hs)
  intro _ w₁ h₁ hsource
  apply Completes.bind (.operand g.source)
  intro x w₂ h₂ hx
  apply Completes.bind (.ofExcept _)
  intro t w₃ h₃ ht
  have hknown : full → t.Known := fun hf =>
    Rules.known_generated ht (by rw [hx]; exact (hsource.mono h₂).known hf)
  have hw₃ := h₁.trans (h₂.trans h₃)
  refine (Completes.forM (P := fun _ _ => True) (fun _ _ _ _ _ => trivial) fun d hd w₄ h₄ => ?_).mono
    fun _ w₄ h₄ _ => hsource.mono (h₂.trans (h₃.trans h₄))
  apply Completes.bind (.retype fun m _ => retypes_setDeclTy hknown)
  intro _ w₅ h₅ _
  apply Completes.bind .model
  intro m w₆ h₆ ⟨hm, _⟩
  subst hm
  refine .retype fun m h => retypes_setTypeInstTy hknown (.inr fun f hf => ?_)
  have hw₆ := hw₃.trans (h₄.trans (h₅.trans h₆))
  rw [hw₆.ti, ((hw₆.trans h).func f).2]
  exact ho d hd f ((hw₆.trans h).size ▸ hf)

theorem completes_comp {c : Comprehension} (hk : w.kind e = .comp c) (hw : w.Formed full) :
    Completes full w (comp visit e c) fun _ w' => full → w'.Typed e := by
  have hpart : ∀ a, .expr a ∈ (ExprKind.comp c).parts Generator.parts → w.kind a ≠ .anon := fun a ha =>
    hw.filled (.expr e) a (List.mem_append_left _ (hk ▸ ha))
  have hsource : ∀ g ∈ c.generators, w.kind g.source ≠ .anon := by
    intro g hg
    refine hpart g.source ?_
    simp only [ExprKind.parts, List.mem_append, List.mem_flatMap]
    exact .inl (.inl ⟨g, hg, List.mem_cons_self⟩)
  apply Completes.bind (.forM (P := fun g w' => w'.Usable full g.source)
    (fun g _ _ hw (h : Model.Usable full _ g.source) => h.mono hw) ?_)
  · intro _ w₁ h₁ hgens
    apply Completes.bind (completes_exprs hv fun a ha => h₁.filled a (hpart a (by simp_all [ExprKind.parts])))
    intro _ w₂ h₂ hguard
    apply Completes.bind (completes_visit hv ((h₁.trans h₂).filled _ (hpart c.body (by simp [ExprKind.parts]))))
    intro _ w₃ h₃ hbody
    apply Completes.bind .model
    rintro m w₄ h₄ ⟨hm, _⟩
    subst hm
    apply Completes.bind (.ofExcept _)
    intro t w₅ h₅ ht
    have hw₅ := h₁.trans (h₂.trans (h₃.trans (h₄.trans h₅)))
    have hmade : full → w₅.Made (.comp c) := by
      refine fun hf => ⟨trivial, fun s hs => ?_⟩
      simp only [ExprKind.parts, List.mem_append, List.mem_flatMap, List.mem_map, List.mem_singleton] at hs
      obtain (⟨g, hg, hs⟩ | ⟨a, ha, rfl⟩) | rfl := hs
      · obtain rfl := List.mem_singleton.mp hs
        exact ((hgens g hg).mono (h₂.trans (h₃.trans (h₄.trans h₅)))).complete hf
      · exact ((hguard a ha).mono (h₃.trans (h₄.trans h₅))).complete hf
      · exact (hbody.mono (h₄.trans h₅)).complete hf
    have he : w₅.Assembled full e := by
      have hne : w.kind e ≠ .anon := by simp [hk]
      refine ⟨hw₅.filled e hne, hw₅.compound e hne (by simp [hk, ExprKind.isConstant]), fun hf => ?_⟩
      exact (hw₅.completing hf).made_kind (hk ▸ hmade hf)
    exact .assemble he fun hf => Rules.known_comp ht ((hbody.mono h₄).known hf)
  · intro g hg w₁ h₁
    refine completes_generator hv (h₁.filled _ (hsource g hg)) fun d hd f hf => ?_
    rw [h₁.ti, (h₁.func f).2]
    exact hw.own e c hk g hg d hd f (h₁.size ▸ hf)

omit hv in
theorem completes_initial {d : DeclId} {declared : Ty} {a : ExprId} (ha : w.Usable full a) :
    Completes full w (initial d declared a) fun _ _ => True := by
  apply Completes.bind (.operand a)
  intro x w₁ h₁ _
  split
  · apply Completes.bind (.coerce (ha.mono h₁) _)
    exact fun b w₂ h₂ hb => .setInit hb
  · apply Completes.bind .model
    exact fun _ _ _ _ => .report _ _

-- The initializer of a declaration is what it was and has been visited, or has been completed.
theorem completes_decl (pass : Pass) (d : DeclId) :
    Completes full w (decl pass visit d) fun _ w' => full → w'.Complete (.decl d) := by
  apply Completes.bind .model
  intro m w₁ h₁ ⟨hm, hform⟩
  subst hm
  have hinit : ∀ a ∈ (w₁.decl d).init.toList, w₁.kind a ≠ .anon := fun a ha =>
    hform.filled (.decl d) a (List.mem_append_left _ (List.mem_cons_of_mem _ (List.mem_map_of_mem ha)))
  have hann : ∀ a ∈ (w₁.decl d).ann, w₁.kind a ≠ .anon := fun a ha =>
    hform.filled (.decl d) a (List.mem_append_right _ (List.mem_map_of_mem ha))
  refine Completes.mono (P := fun _ w' => ∀ a ∈ (w₁.decl d).init.toList, w'.Usable full a) ?_ ?_
  · apply Completes.bind (hv (.typeInst _) w₁ (by simp))
    intro _ w₂ h₂ hti
    apply Completes.bind (completes_exprs hv fun a ha => h₂.filled a (hinit a ha))
    intro _ w₃ h₃ ha
    apply Completes.bind (completes_annotations hv fun a hm => (h₂.trans h₃).filled a (hann a hm))
    intro _ w₄ h₄ _
    apply Completes.bind .model
    intro m w₅ h₅ ⟨hm, _⟩
    subst hm
    have hdeclared : full → (w₅.typeInst (w₁.decl d).ti).ty.Known := fun hf =>
      ((h₃.trans (h₄.trans h₅)).completing hf).typeInsts _ hti
    have hset := Completes.retype (w := w₅) fun m _ => retypes_setDeclTy (m := m) (d := d) hdeclared
    cases pass
    case declare => exact hset.mono fun _ w₆ h₆ _ a hm => (ha a hm).mono (h₄.trans (h₅.trans h₆))
    case check =>
      apply Completes.when hset
      intro w₆ h₆
      have hw₆ := h₄.trans (h₅.trans h₆)
      refine (Completes.forM (P := fun _ _ => True) (fun _ _ _ _ _ => trivial) fun a hm w₇ h₇ => ?_).mono
        fun _ w₇ h₇ _ a hm => (ha a hm).mono (hw₆.trans h₇)
      exact completes_initial ((ha a hm).mono (hw₆.trans h₇))
  · intro _ w' hw' ha hf
    cases (hw'.completing hf).inits d
    case inr hc => exact hc
    case inl hi => exact complete_decl.mpr fun a hm => (ha a (by rw [← hi]; exact Option.mem_toList.mpr hm)).complete hf

omit hv in
theorem completes_typeIn {ty : Ty} {span : Span} {domain : Option ExprId} :
    Completes full w (typeIn ty span domain) fun t _ => t.Known := by
  cases domain
  case none =>
    rw [typeIn]
    split
    · exact Completes.bind (P := fun _ _ => False) (.fail _ _) fun _ _ _ h => h.elim
    · next hk => exact .pure fun _ _ => Ty.known_iff.mpr hk
  case some a =>
    apply Completes.bind .model
    intro m w₁ h₁ _
    apply Completes.bind (.ofExcept _)
    intro t w₂ h₂ _
    split
    · apply Completes.bind (.ofExcept _)
      intro base w₃ h₃ hb
      have hbase : base ≠ .unknown := by
        rw [Rules.domainBase] at hb
        split at hb
        all_goals cases hb
        all_goals simp
      have hk : ∀ u : Ty, (u.withBase base).Known := fun _ => hbase
      apply Completes.bind (.setKnown a (hk _))
      exact fun _ _ _ _ => .pure fun _ _ => hbase
    · next hk => exact .pure fun _ _ => Ty.known_iff.mpr hk

theorem completes_typeInst (t : TypeInstId) :
    Completes full w (typeInst visit t) fun _ w' => (w'.typeInst t).ty.Known := by
  apply Completes.bind .model
  intro m w₁ h₁ ⟨hm, hform⟩
  subst hm
  have hdomain : ∀ a ∈ (w₁.typeInst t).domain.toList, w₁.kind a ≠ .anon := fun a ha =>
    hform.filled (.typeInst t) a (List.mem_append_right _ (List.mem_map_of_mem ha))
  have hrange : ∀ r w', Completes full w' (visit (.typeInst r)) fun _ _ => True := fun r w' =>
    (hv (.typeInst r) w' (by simp)).mono fun _ _ _ _ => trivial
  apply Completes.bind (.forM (fun _ _ _ _ _ => trivial) fun r _ w' _ => hrange r w')
  intro _ w₂ h₂ _
  apply Completes.bind (completes_exprs hv fun a ha => h₂.filled a (hdomain a ha))
  intro _ w₃ h₃ _
  apply Completes.bind .model
  intro m w₄ h₄ _
  apply Completes.bind (.ofExcept _)
  intro u w₅ h₅ hu
  apply Completes.bind (P := fun u' _ => u'.Known ∧ t.index < w₁.typeInsts.size) ?_
  · intro u' w₆ h₆ ⟨hk, ht⟩
    apply Completes.bind (.ofExcept _)
    intro _ w₇ h₇ _
    refine .changeModel fun m hw hm => ?_
    have hr : m.Retypes full (m.setTypeInstTy t u') := retypes_setTypeInstTy (fun _ => hk) (.inl hk)
    refine ⟨hr.advances, hr.formed hm, ?_⟩
    have hsize := (h₂.trans (h₃.trans (h₄.trans (h₅.trans (h₆.trans (h₇.trans hw)))))).typeInsts
    rwa [ty_setTypeInstTy, if_pos ⟨rfl, by omega⟩]
  · by_cases ht : t.index < w₁.typeInsts.size
    · exact completes_typeIn.mono fun _ _ _ hk => ⟨hk, ht⟩
    · -- What is not there has no type, and no domain to take one from.
      have hnone : w₁.typeInst t = default := by simp [Model.typeInst, Nat.le_of_not_lt ht]
      rw [hnone] at hu ⊢
      cases hu
      exact Completes.bind (P := fun _ _ => False) (.fail _ _) fun _ _ _ h => h.elim

omit hv in
theorem completes_finiteSet (d : DeclId) : Completes full w (finiteSet d) fun _ _ => True := by
  apply Completes.bind .model
  intro m w₁ _ _
  dsimp only
  split
  · exact .report _ _
  · exact .pure fun _ _ => trivial

omit hv in
theorem completes_letOrigin (item : LetItem) (old : Option ExprId) :
    Completes full w (letOrigin item old) fun _ _ => True := by
  cases item
  case constraint => exact .pure fun _ _ => trivial
  case decl d =>
    apply Completes.bind .model
    intro m w₁ _ _
    apply Completes.bind (completes_finiteSet d)
    intro _ w₂ _ _
    apply Completes.when (R := fun _ _ => True) (.fail _ _)
    intro w₃ _
    apply Completes.bind .model
    intro m w₄ _ _
    apply Completes.when (.report _ _)
    exact fun _ _ => .pure fun _ _ => trivial

theorem completes_letIn {l : Let} (hk : w.kind e = .letIn l) (hw : w.Formed full) :
    Completes full w (letIn visit e l) fun _ w' => full → w'.Typed e := by
  have hpart : ∀ a, .expr a ∈ (ExprKind.letIn l).parts Generator.parts → w.kind a ≠ .anon := fun a ha =>
    hw.filled (.expr e) a (List.mem_append_left _ (hk ▸ ha))
  have he : w.kind e ≠ .anon := by simp [hk]
  apply Completes.bind (.forM (P := fun item w' => full → w'.Complete item.site)
    (fun item _ _ hw h hf => (hw.completing hf).complete item.site (h hf)) ?_)
  · intro _ w₁ h₁ hitems
    apply Completes.bind (completes_visit hv (h₁.filled _ (hpart l.body (by simp [ExprKind.parts]))))
    intro _ w₂ h₂ hbody
    apply Completes.bind (Completes.mapM (Q := fun _ _ => True) (fun _ _ _ _ _ => trivial) ?_)
    · intro origin w₃ h₃ _
      have hset : w₃.Settable full (.letIn { l with origin }) := by
        refine ⟨by simp, by simp [ExprKind.isConstant], by simp, fun a ha => ?_, fun hf => ⟨trivial, fun s hs => ?_⟩⟩
        · exact (h₁.trans (h₂.trans h₃)).filled a (hpart a ha)
        · cases List.mem_append.mp hs
          case inl hs =>
            obtain ⟨item, hi, rfl⟩ := List.mem_map.mp hs
            exact ((h₂.trans h₃).completing hf).complete _ (hitems item hi hf)
          case inr hs =>
            obtain rfl := List.mem_singleton.mp hs
            exact (hbody.mono h₃).complete hf
      apply Completes.bind (.setKind ((h₁.trans (h₂.trans h₃)).filled e he) hset)
      intro _ w₄ h₄ hnode
      apply Completes.bind .model
      rintro m w₅ h₅ ⟨hm, _⟩
      subst hm
      exact .assemble (hnode.mono h₅) fun hf => (hbody.mono (h₃.trans (h₄.trans h₅))).known hf
    · exact fun i _ w₃ _ => completes_letOrigin i.1 _
  · intro item hi w₁ h₁
    cases item
    case decl d => exact hv (.decl d) w₁ (by simp)
    case constraint a =>
      have ha := hpart a (List.mem_append_left _ (List.mem_map.mpr ⟨_, hi, rfl⟩))
      exact (completes_visit hv (h₁.filled a ha)).mono fun _ _ _ h => h.complete

theorem completes_node {k : ExprKind} (hk : w.kind e = k) (he : k ≠ .anon) (hw : w.Formed full) :
    Completes full w (node visit e k) fun _ w' => full → w'.Typed e := by
  have hpart : ∀ a, .expr a ∈ k.parts Generator.parts → w.kind a ≠ .anon := fun a ha =>
    hw.filled (.expr e) a (List.mem_append_left _ (hk ▸ ha))
  have hne : w.kind e ≠ .anon := hk ▸ he
  cases k
  case anon => exact (he rfl).elim
  case int | float | bool | string | intSet | absent | typeVar =>
    have hknown := hw.constants e (by rw [hk]; rfl)
    have hmade : w.Made (w.kind e) := by
      rw [hk]
      exact ⟨trivial, by simp [ExprKind.parts]⟩
    exact .pure fun w₁ h₁ hf => Typed.mono (h₁.completing hf) ⟨hknown, hmade⟩
  case ident name b =>
    cases b
    case none =>
      apply Completes.bind .model
      exact fun _ _ _ _ => .fail _ _
    case some d =>
      apply Completes.bind .model
      rintro m w₁ h₁ ⟨hm, _⟩
      subst hm
      dsimp only
      split
      · exact Completes.bind (P := fun _ _ => False) (.fail _ _) fun _ _ _ h => h.elim
      · next hu =>
        have hd : (w₁.decl d).ty.Known := Ty.known_iff.mpr hu
        exact .assemble (.of_exprs [] h₁ hk rfl rfl rfl ⟨d, rfl, hd⟩ (by simp)) fun _ => hd
  case comp c => exact completes_comp hv hk hw
  case letIn l => exact completes_letIn hv hk hw
  case ite branches otherwise =>
    have hb : ∀ b ∈ branches, w.kind b.1 ≠ .anon ∧ w.kind b.2 ≠ .anon := by
      refine fun b hb => ⟨hpart b.1 ?_, hpart b.2 ?_⟩
      all_goals exact List.mem_append_left _ (List.mem_flatMap.mpr ⟨b, hb, by simp⟩)
    apply Completes.bind (.forM (P := fun b w' => w'.Usable full b.1 ∧ w'.Usable full b.2)
      (fun b _ _ hw (h : Model.Usable full _ b.1 ∧ _) => ⟨h.1.mono hw, h.2.mono hw⟩) ?_)
    · intro _ w₁ h₁ hb
      apply Completes.bind (completes_visit hv (h₁.filled _ (hpart otherwise (by simp [ExprKind.parts]))))
      intro _ w₂ h₂ ho
      exact completes_ite ((h₁.trans h₂).filled e hne) (fun b hm => ⟨(hb b hm).1.mono h₂, (hb b hm).2.mono h₂⟩) ho
    · intro b hm w₁ h₁
      have hb := hb b hm
      have hfilled : ∀ a ∈ [b.1, b.2], w₁.kind a ≠ .anon := by
        simpa using ⟨h₁.filled _ hb.1, h₁.filled _ hb.2⟩
      exact (completes_exprs hv hfilled).mono fun _ _ _ h => ⟨h b.1 (by simp), h b.2 (by simp)⟩
  case un op arg _ =>
    apply Completes.bind (completes_visit hv (hpart arg (by simp [ExprKind.parts])))
    intro _ w₁ h₁ ha
    refine completes_un (.of_exprs [arg] h₁ hk rfl rfl rfl trivial ?_) ha
    exact List.forall_mem_singleton.mpr ha
  all_goals
    apply Completes.bind (completes_exprs hv fun a ha => hpart a (List.mem_map_of_mem ha))
    intro _ w₁ h₁ hs
  case setLit => exact completes_setLit (.of_exprs _ h₁ hk rfl rfl rfl trivial hs) hs
  case arrayLit => exact completes_arrayLit (.of_exprs _ h₁ hk rfl rfl rfl trivial hs) hs
  case access => exact completes_access (h₁.filled e hne) hs
  case bin => exact completes_bin (.of_exprs _ h₁ hk rfl rfl rfl trivial hs) hs
  case call => exact completes_call (h₁.filled e hne) hs

theorem completes_expr (he : w.kind e ≠ .anon) :
    Completes full w (expr visit e) fun _ w' => w'.Usable full e := by
  apply Completes.bind .model
  intro m w₁ h₁ ⟨hm, hform⟩
  subst hm
  apply Completes.bind (completes_node hv rfl (h₁.filled e he) hform)
  intro _ w₂ h₂ htyped
  apply Completes.bind .model
  intro m w₃ h₃ ⟨hm, hform⟩
  subst hm
  have hann : ∀ a ∈ (w₃.expr e).ann, w₃.kind a ≠ .anon := fun a ha =>
    hform.filled (.expr e) a (List.mem_append_right _ (List.mem_map_of_mem ha))
  apply (completes_annotations hv hann).mono
  intro _ w₄ h₄ ha
  refine ⟨(h₁.trans (h₂.trans (h₃.trans h₄))).filled e he, fun hf => complete_expr.mpr ?_⟩
  have ht := (htyped hf).mono ((h₃.trans h₄).completing hf)
  exact ⟨ht.known, ht.made, fun a hm => (ha a (h₄.ann e ▸ hm)).complete hf⟩

omit hv in
theorem visits_walk (full : Prop) (pass : Pass) : ∀ fuel, Visits full (walk pass fuel)
  | 0, _, _, _ => .throw
  | fuel + 1, s, w, hs => by
    have ih := visits_walk full pass fuel
    cases s
    case expr e => exact completes_expr ih (hs e rfl)
    case decl d => exact completes_decl ih pass d
    case typeInst t => exact completes_typeInst ih t

end Walk
end Typing

theorem visits_assignTypes (full : Prop) (pass : Pass) : Typing.Visits full (assignTypes pass) := by
  intro s w hs c
  have hx : assignTypes pass s c = Typing.walk pass c.model.walkFuel s c := rfl
  simpa only [final, hx] using Typing.visits_walk full pass c.model.walkFuel s w hs c

end Parvar
