import Parvar.Proofs.Resolve.Rebinds
import Parvar.Proofs.Model.Stocked
import Parvar.Proofs.Typing.Order

/-!
What it takes for a definition to be rejected as circular. The declarations that are being resolved
form a path: each was opened from inside the one before it, by a name or as an item of a let. So the
name of one of them, met inside the innermost, closes a circle of names.
-/

namespace Parvar

open Resolve Check

section Definitions

variable (m : Model)

-- Something stands in the type-inst or in the initializer of a declaration.
def Model.Encloses (d : DeclId) (s : Site) : Prop := ∃ n ∈ m.needs d, m.Uses n s

-- The type-inst or the initializer of a declaration contains an identifier that names another.
def Model.Cites (d c : DeclId) : Prop := ∃ e, m.Mentions d e ∧ (m.kind e).name? = some (m.decl c).name

-- Some declaration of the name reaches itself through what declarations cite.
def Model.Circular (name : String) : Prop := ∃ d, (m.decl d).name = name ∧ Relation.TransGen m.Cites d d

-- Resolution goes from one declaration to another where it is cited, or where it is local.
def Model.Opens (a b : DeclId) : Prop := m.Cites a b ∨ m.Encloses a (.decl b)

-- A state in which `m` is being resolved.
structure Resolve.Path (r : Resolution) : Prop where
  model : m.Rebinds r.model
  scope : ∀ name d, (name, d) ∈ r.scope → (m.decl d).name = name
  chain : r.active.IsChain fun b a => m.Opens a b

-- The place of a node among the declarations that are being resolved, the innermost first.
def Resolve.At (act : List DeclId) : Site → Prop
  | .decl d => ∀ t ∈ act.head?, m.Opens t d
  | s => ∀ t ∈ act.head?, m.Encloses t s

end Definitions

variable {α β : Type} {m m₁ : Model} {a b c d : DeclId} {e : ExprId} {s n : Site} {act : List DeclId}

section Circles

theorem Model.Encloses.tail (h : m.Encloses d s) (hn : n ∈ m.uses s) : m.Encloses d n :=
  have ⟨k, hk, hs⟩ := h
  ⟨k, hk, hs.tail hn⟩

theorem Model.Encloses.of_needs (h : s ∈ m.needs d) : m.Encloses d s := ⟨s, h, .refl⟩

-- What a local declaration cites is cited by the declaration that it is local to.
theorem Model.Cites.of_encloses (h : m.Encloses a (.decl b)) (hb : m.Cites b c) : m.Cites a c := by
  obtain ⟨k, hk, hs⟩ := h
  obtain ⟨e, ⟨n, hn, he⟩, hname⟩ := hb
  exact ⟨e, ⟨k, hk, (hs.tail (List.mem_append_left _ hn)).trans he⟩, hname⟩

theorem Model.transGen_of_opens (h : Relation.ReflTransGen m.Opens a b) (hb : m.Cites b c) :
    Relation.TransGen m.Cites a c := by
  induction h using Relation.ReflTransGen.head_induction_on with
  | refl => exact .single hb
  | head ha _ ih =>
    cases ha with
    | inl ha => exact .head ha ih
    | inr ha =>
      -- The first step of the way is one that the outer declaration could take as well.
      obtain ⟨k, hk, hc⟩ := Relation.TransGen.head'_iff.mp ih
      exact .head' (hk.of_encloses ha) hc

-- The innermost declaration is reached from all that are being resolved.
theorem Model.opens_of_chain {t : DeclId} (h : (t :: act).IsChain fun b a => m.Opens a b) (hd : d ∈ t :: act) :
    Relation.ReflTransGen m.Opens d t := by
  induction act generalizing t with
  | nil =>
    obtain rfl := List.mem_singleton.mp hd
    exact .refl
  | cons u act ih =>
    obtain ⟨htu, h⟩ := List.isChain_cons_cons.mp h
    cases List.mem_cons.mp hd with
    | inl hd => exact hd ▸ .refl
    | inr hd => exact (ih h hd).tail htu

end Circles

namespace Resolve

-- A step that starts below the given declarations ends below them, and if it fails because of a
-- circular definition, there is one.
def Honest (m : Model) (act : List DeclId) (x : ResolveM α) (Q : α → Prop) : Prop :=
  ∀ r, Path m r → r.active = act →
    (∀ a r', x r = .ok a r' → Path m r' ∧ r'.active = act ∧ Q a) ∧
      ∀ name span r', x r = .error (.failed ⟨.circular name, span⟩) r' → m.Circular name

section Scope

variable {r : Resolution}

theorem path_push (d : DeclId) (hr : Path m r) : Path m (r.push d) := by
  refine ⟨hr.model, fun name c hc => ?_, hr.chain⟩
  obtain h | hc := List.mem_cons.mp hc
  · cases h
    simp [Model.decl, hr.model.decls]
  · exact hr.scope name c hc

theorem path_pop (d : DeclId) (hr : Path m r) : Path m (r.pop d) :=
  ⟨hr.model, fun name c hc => hr.scope name c (List.mem_of_mem_eraseP hc), hr.chain⟩

end Scope

namespace Honest

variable {P : α → Prop} {Q : β → Prop}

theorem pure {v : α} (h : P v) : Honest m act (pure v : ResolveM α) P := by
  refine fun r hr ha => ⟨fun w r' hx => ?_, fun _ _ _ hx => by cases hx⟩
  obtain ⟨rfl, rfl⟩ := pure_eq_ok.mp hx
  exact ⟨hr, ha, h⟩

theorem done : Honest m act (Pure.pure ⟨⟩ : ResolveM PUnit) fun _ => True := pure trivial

theorem bind {x : ResolveM α} {f : α → ResolveM β} (hx : Honest m act x P)
    (hf : ∀ v, P v → Honest m act (f v) Q) : Honest m act (x >>= f) Q := by
  intro r hr ha
  have ⟨hok, herr⟩ := hx r hr ha
  cases e : x r with
  | error h t =>
    refine ⟨fun w r' hw => ?_, fun name span r' hw => herr name span r' ?_⟩
    · have ⟨_, _, he, _⟩ := bind_eq_ok.mp hw
      cases e.symm.trans he
    · simpa [Bind.bind, EStateM.bind, e] using hw
  | ok v t =>
    have ⟨ht, hta, hv⟩ := hok v t e
    have ⟨hok', herr'⟩ := hf v hv t ht hta
    refine ⟨fun w r' hw => hok' w r' ?_, fun name span r' hw => herr' name span r' ?_⟩
    all_goals simpa [Bind.bind, EStateM.bind, e] using hw

theorem seq {x : ResolveM α} {f : α → ResolveM β} (hx : Honest m act x fun _ => True)
    (hf : ∀ v, Honest m act (f v) Q) : Honest m act (x >>= f) Q :=
  bind hx fun v _ => hf v

theorem forM {f : α → ResolveM PUnit} {as : List α} (hf : ∀ v ∈ as, Honest m act (f v) fun _ => True) :
    Honest m act (as.forM f) fun _ => True := by
  induction as with
  | nil => exact done
  | cons v as ih =>
    exact seq (hf v List.mem_cons_self) fun _ => ih fun w hw => hf w (List.mem_cons_of_mem _ hw)

theorem get : Honest m act (MonadState.get : ResolveM Resolution) fun r => Path m r ∧ r.active = act := by
  refine fun r hr ha => ⟨fun w r' hx => ?_, fun _ _ _ hx => by cases hx⟩
  obtain ⟨rfl, rfl⟩ := get_eq_ok.mp hx
  exact ⟨hr, ha, hr, ha⟩

theorem modify {f : Resolution → Resolution} (hf : ∀ r, Path m r → Path m (f r))
    (ha : ∀ r, (f r).active = r.active) : Honest m act (modify f : ResolveM PUnit) fun _ => True := by
  refine fun r hr hact => ⟨fun w r' hx => ?_, fun _ _ _ hx => by cases hx⟩
  cases hx
  exact ⟨hf r hr, (ha r).trans hact, trivial⟩

-- All causes but one say nothing about circles.
theorem fail {cause : TypeError.Cause} (hc : ∀ name, cause ≠ .circular name) (span : Span) :
    Honest m act (ResolveM.fail cause span : ResolveM α) P := by
  refine fun r _ _ => ⟨fun w r' hx => (by cases hx), fun name span r' hx => ?_⟩
  cases hx
  exact absurd rfl (hc name)

theorem push (d : DeclId) : Honest m act (ResolveM.push d) fun _ => True :=
  .modify (fun _ => path_push d) fun _ => rfl

theorem pop (d : DeclId) : Honest m act (ResolveM.pop d) fun _ => True :=
  .modify (fun _ => path_pop d) fun _ => rfl

theorem lookup (name : String) (span : Span) :
    Honest m act (ResolveM.lookup name span) fun d => (m.decl d).name = name := by
  refine .bind .get fun r ⟨hr, _⟩ => ?_
  split
  · next d hd =>
    have ⟨l₁, l₂, hs, _⟩ := List.lookup_eq_some_iff.mp hd
    exact .pure (hr.scope name d (by simp [hs]))
  · exact .fail (by simp) span

-- A name may be bound, and the items of a let be put in order.
theorem setKind {k : ExprKind} (hk : (m.kind e).Rebinds k) :
    Honest m act (ResolveM.changeModel (·.setKind e k)) fun _ => True :=
  .modify (fun _ hr => ⟨hr.model.setKind hk, hr.scope, hr.chain⟩) fun _ => rfl

end Honest

-- A declaration is opened, and closed again.
theorem honest_enter {x : ResolveM PUnit} (hd : ∀ t ∈ act.head?, m.Opens t d)
    (hx : Honest m (d :: act) x fun _ => True) :
    Honest m act (do modify (·.enter d); x; modify (·.leave d)) fun _ => True := by
  intro r hr ha
  have hin : Path m (r.enter d) :=
    ⟨hr.model, hr.scope, List.isChain_cons.mpr ⟨fun t ht => hd t (ha ▸ ht), hr.chain⟩⟩
  have ⟨hok, herr⟩ := hx (r.enter d) hin (by rw [← ha]; rfl)
  have hrun : (do modify (·.enter d); x; modify (·.leave d) : ResolveM PUnit) r =
      (x >>= fun _ => modify (·.leave d)) (r.enter d) := rfl
  rw [hrun]
  refine ⟨fun w r' hw => ?_, fun name span r' hw => ?_⟩
  · have ⟨_, t, ht, hleave⟩ := bind_eq_ok.mp hw
    obtain ⟨htp, hta, -⟩ := hok _ t ht
    cases hleave
    have hact : (t.leave d).active = act := by
      rw [Resolution.leave, hta, List.erase_cons_head]
    refine ⟨⟨htp.model, htp.scope, ?_⟩, hact, trivial⟩
    rw [hact, ← ha]
    exact hr.chain
  · cases e : x (r.enter d) with
    | error h t => exact herr name span r' (by simpa [Bind.bind, EStateM.bind, e] using hw)
    | ok v t =>
      have hw : (modify (·.leave d) : ResolveM PUnit) t = .error (.failed ⟨.circular name, span⟩) r' := by
        simpa [Bind.bind, EStateM.bind, e] using hw
      cases hw

section Walk

variable (hann : ∀ d, (m.decl d).ann = []) {visit : Visit}
  (hv : ∀ act s, At m act s → Honest m act (visit s) fun _ => True)

-- The parts of an expression stand where it stands.
theorem At.part {c : Site} (h : At m act (.expr e)) (hc : c ∈ m.uses (.expr e)) : At m act c := by
  cases c
  case decl => exact fun t ht => .inr ((h t ht).tail hc)
  case expr | typeInst => exact fun t ht => (h t ht).tail hc

include hv

theorem honest_exprs {es : List ExprId} (h : ∀ a ∈ es, At m act (.expr a)) :
    Honest m act (exprs visit es) fun _ => True :=
  .forM fun a ha => hv act _ (h a ha)

-- A name that leads back to a declaration on the path closes a circle.
theorem honest_ident {name : String} {bound : Option DeclId} (span : Span) (h : At m act (.expr e))
    (hk : (m.kind e).Rebinds (.ident name bound)) : Honest m act (ident visit e name span) fun _ => True := by
  have hname : (m.kind e).name? = some name := by
    generalize m.kind e = k at hk
    cases hk <;> rfl
  refine .bind (.lookup name span) fun d hd => ?_
  have hcites : ∀ t ∈ act.head?, m.Cites t d := fun t ht => ⟨e, h t ht, hd ▸ hname⟩
  refine .seq (.bind .get fun r ⟨hr, ha⟩ => ?_) fun _ => .setKind (hk.trans (.ident name bound (some d)))
  split
  · exact .done
  · split
    · next hmem =>
      refine fun r' _ _ => ⟨fun _ _ hx => (by cases hx), fun n _ _ hx => ?_⟩
      cases hx
      refine ⟨d, hd, ?_⟩
      rw [ha] at hmem
      cases act with
      | nil => cases hmem
      | cons t act =>
        have hchain := ha ▸ hr.chain
        exact Model.transGen_of_opens (Model.opens_of_chain hchain hmem) (hcites t rfl)
    · exact hv act (.decl d) fun t ht => .inl (hcites t ht)

theorem honest_comp {c : Comprehension} (h : ∀ s ∈ (ExprKind.comp c).parts Generator.uses, At m act s) :
    Honest m act (comp visit c) fun _ => True := by
  have hsource : ∀ g ∈ c.generators, At m act (.expr g.source) := fun g hg =>
    h _ (by simp only [ExprKind.parts, Generator.uses, List.mem_append, List.mem_flatMap]
            exact .inl (.inl ⟨g, hg, List.mem_singleton_self _⟩))
  have hguard : ∀ a ∈ c.guard.toList, At m act (.expr a) := fun a ha => h _ (by
    simp only [ExprKind.parts, List.mem_append]
    exact .inl (.inr (List.mem_map_of_mem ha)))
  have hbody : At m act (.expr c.body) := h _ (by simp [ExprKind.parts])
  refine .seq (.forM fun g hg => .seq (hv act _ (hsource g hg)) fun _ => .forM fun d _ => .push d) fun _ => ?_
  refine .seq (honest_exprs hv hguard) fun _ => .seq (hv act _ hbody) fun _ => ?_
  exact .forM fun g _ => .forM fun d _ => .pop d

theorem honest_letIn {l : Let} (hk : (m.kind e).Rebinds (.letIn l))
    (h : ∀ s ∈ (ExprKind.letIn l).parts Generator.uses, At m act s) :
    Honest m act (letIn visit e l) fun _ => True := by
  have ⟨hitems, hbody⟩ := List.forall_mem_append.mp h
  refine .seq (.forM fun item hitem => ?_) fun _ => ?_
  · have hat := hitems _ (List.mem_map_of_mem hitem)
    cases item
    case decl d => exact .seq (hv act _ hat) fun _ => .push d
    case constraint => exact hv act _ hat
  · refine .seq (hv act _ (hbody _ (List.mem_singleton_self _))) fun _ => .bind .get fun r _ => ?_
    refine .seq (.forM fun item hitem => ?_) fun _ => .setKind (hk.trans (.letIn (List.mergeSort_perm _ _) rfl))
    clear hitem
    cases item
    case decl d => exact .pop d
    case constraint => exact .done

theorem honest_node {k : ExprKind} (span : Span) (h : At m act (.expr e)) (hk : (m.kind e).Rebinds k) :
    Honest m act (node visit e span k) fun _ => True := by
  have hparts : ∀ s ∈ k.parts Generator.uses, At m act s := fun s hs =>
    h.part (List.mem_append_left _ (hk.mem_parts.mp hs))
  cases k
  case int | float | bool | string | intSet | absent | anon | typeVar => exact .done
  case ident => exact honest_ident hv span h hk
  case comp c => exact honest_comp hv hparts
  case letIn l => exact honest_letIn hv hk hparts
  case ite branches otherwise =>
    have ⟨hb, ho⟩ := Typing.forall_ite_parts.mp hparts
    refine .seq (.forM fun b hm => honest_exprs hv ?_) fun _ => hv act _ ho
    simpa using hb b hm
  case un op arg _ => exact hv act _ (List.forall_mem_singleton.mp hparts)
  all_goals exact honest_exprs hv (List.forall_mem_map.mp hparts)

theorem honest_expr (h : At m act (.expr e)) : Honest m act (expr visit e) fun _ => True := by
  refine .bind .get fun r ⟨hr, _⟩ => .seq (honest_node hv _ h (hr.model.kind e)) fun _ => ?_
  refine honest_exprs hv fun a ha => h.part (List.mem_append_right _ (List.mem_map_of_mem ?_))
  rwa [← hr.model.ann e]

theorem honest_typeInst {t : TypeInstId} (h : At m act (.typeInst t)) :
    Honest m act (typeInst visit t) fun _ => True := by
  refine .bind .get fun r ⟨hr, _⟩ => ?_
  have hti : r.model.typeInst t = m.typeInst t := by rw [Model.typeInst, Model.typeInst, hr.model.typeInsts]
  rw [hti]
  refine .seq (.forM fun u hu => hv act _ fun c hc => (h c hc).tail ?_) fun _ => ?_
  · exact List.mem_append_left _ (List.mem_map_of_mem hu)
  · exact honest_exprs hv fun a ha c hc => (h c hc).tail (List.mem_append_right _ (List.mem_map_of_mem ha))

include hann in
theorem honest_decl (h : At m act (.decl d)) : Honest m act (decl visit d) fun _ => True := by
  refine .bind .get fun r ⟨hr, _⟩ => ?_
  have hdecl : r.model.decl d = m.decl d := by rw [Model.decl, Model.decl, hr.model.decls]
  split
  · exact .done
  · rw [hdecl]
    dsimp only
    rw [hann d]
    have hin : ∀ s ∈ m.needs d, m.Encloses d s := fun s => .of_needs
    have hti : At m (d :: act) (.typeInst (m.decl d).ti) := by
      rintro t ⟨⟩
      exact hin _ List.mem_cons_self
    have hinit : ∀ a ∈ (m.decl d).init.toList, At m (d :: act) (.expr a) := by
      rintro a ha t ⟨⟩
      exact hin _ (List.mem_cons_of_mem _ (List.mem_map_of_mem ha))
    have hbody := honest_enter h (.seq (hv _ _ hti) fun _ => honest_exprs hv hinit)
    have hrest : Honest m act (exprs visit []) fun _ => True := .done
    simpa only [bind_assoc] using Honest.seq hbody fun _ => hrest

omit hv
include hann

theorem honest_walk : ∀ (fuel : Nat) (act : List DeclId) (s : Site), At m act s →
    Honest m act (walk fuel s) fun _ => True
  | 0, _, _, _ => fun _ _ _ => ⟨fun _ _ hx => (by cases hx), fun _ _ _ hx => by cases hx⟩
  | fuel + 1, act, s, h => by
    have ih := honest_walk fuel
    cases s
    case expr e => exact honest_expr ih h
    case decl d => exact honest_decl hann ih h
    case typeInst t => exact honest_typeInst ih h

end Walk

section Items

variable (hann : ∀ d, (m.decl d).ann = [])

include hann

-- Items are not inside a declaration.
theorem honest_resolve (s : Site) : Honest m [] (resolve s) fun _ => True := by
  have hat : At m [] s := by
    cases s <;> exact fun t ht => by cases ht
  intro r
  have hx : resolve s r = walk r.model.walkFuel s r := rfl
  simpa only [hx] using honest_walk hann r.model.walkFuel [] s hat r

theorem honest_resolveExprs (es : List ExprId) : Honest m [] (resolveExprs es) fun _ => True :=
  .forM fun _ _ => honest_resolve hann _

omit hann in
theorem path_foldl {f : Resolution → DeclId → Resolution}
    (hf : ∀ r d, Path m r → Path m (f r d) ∧ (f r d).active = r.active) (ds : List DeclId) {r : Resolution}
    (hr : Path m r) : Path m (ds.foldl f r) ∧ (ds.foldl f r).active = r.active :=
  List.foldlRecOn (motive := fun r' : Resolution => Path m r' ∧ r'.active = r.active) ds f ⟨hr, rfl⟩
    fun r' ⟨h, ha⟩ d _ => ⟨(hf r' d h).1, (hf r' d h).2.trans ha⟩

omit hann in
theorem honest_withScope (ds : List DeclId) {x : ResolveM Unit} (hx : Honest m [] x fun _ => True) :
    Honest m [] (withScope ds x) fun _ => True := by
  intro r hr ha
  obtain ⟨hin, hina⟩ := path_foldl (f := Resolution.push) (fun r d h => ⟨path_push d h, rfl⟩) ds hr
  obtain ⟨hok, herr⟩ := hx _ hin (hina.trans ha)
  rw [withScope]
  cases e : x (ds.foldl Resolution.push r) with
  | error h t => exact ⟨fun _ _ hw => (by cases hw), fun name span _ hw => by cases hw; exact herr name span t e⟩
  | ok v t =>
    obtain ⟨ht, hta, -⟩ := hok v t e
    obtain ⟨hout, houta⟩ := path_foldl (f := Resolution.pop) (fun r d h => ⟨path_pop d h, rfl⟩) ds ht
    refine ⟨fun _ r' hw => ?_, fun _ _ _ hw => by cases hw⟩
    cases hw
    exact ⟨hout, houta.trans hta, trivial⟩

theorem honest_resolveItem (item : Item) : Honest m [] (resolveItem item) fun _ => True := by
  cases item
  case submodel | assign => exact .done
  case decl | constraint | output => exact honest_resolve hann _
  case solve => exact .seq (honest_resolveExprs hann _) fun _ => honest_resolveExprs hann _
  case func f =>
    refine .bind .get fun r _ => .seq (honest_resolve hann _) fun _ => ?_
    refine .seq (.forM fun p _ => honest_resolve hann _) fun _ => .seq (honest_resolveExprs hann _) fun _ => ?_
    exact honest_withScope _ (honest_resolveExprs hann _)

theorem honest_resolvedItems (paths : List ItemPath) :
    Honest m [] (eachSlot paths fun _ s => resolveItem s.item) fun _ => True := by
  refine .forM fun p _ => .bind .get fun r _ => ?_
  split
  · split
    · exact .done
    · exact honest_resolveItem hann _
  · exact .done

end Items

end Resolve

section Spares

variable {σ : Type} {P : TypeError.Cause → Prop}

-- A step that does not fail for one of the given causes.
def Spares (P : TypeError.Cause → Prop) (x : EStateM (Halt TypeError) σ α) : Prop :=
  ∀ s err s', P err.cause → x s ≠ .error (.failed err) s'

namespace Spares

theorem pure (v : α) : Spares P (pure v : EStateM (Halt TypeError) σ α) := fun _ _ _ _ h => by cases h

theorem get : Spares P (MonadState.get : EStateM (Halt TypeError) σ σ) := fun _ _ _ _ h => by cases h

theorem modify (f : σ → σ) : Spares P (modify f : EStateM (Halt TypeError) σ PUnit) := fun _ _ _ _ h => by cases h

theorem bind {x : EStateM (Halt TypeError) σ α} {f : α → EStateM (Halt TypeError) σ β} (hx : Spares P x)
    (hf : ∀ v, Spares P (f v)) : Spares P (x >>= f) := by
  intro s err s' hp h
  cases e : x s with
  | error err t =>
    simp only [Bind.bind, EStateM.bind, e] at h
    cases h
    exact hx s err _ hp e
  | ok v t => exact hf v t err s' hp (by simpa [Bind.bind, EStateM.bind, e] using h)

theorem forM {f : α → EStateM (Halt TypeError) σ PUnit} {as : List α} (hf : ∀ v ∈ as, Spares P (f v)) :
    Spares P (as.forM f) := by
  induction as with
  | nil => exact pure _
  | cons v as ih => exact bind (hf v List.mem_cons_self) fun _ => ih fun w hw => hf w (List.mem_cons_of_mem _ hw)

theorem attempt (x : CheckM Unit) : Spares P (CheckM.attempt x) := by
  intro s err s' _ h
  simp only [CheckM.attempt] at h
  cases e : x s with
  | ok => simp [e] at h
  | error err =>
    cases err
    case failed => simp [e] at h
    case outOfFuel => simp [e] at h

theorem checking {x : CheckM Unit} (hx : Spares P x) : Spares P (ModelM.checking x) := by
  intro m err m' hp h
  simp only [ModelM.checking] at h
  split at h
  · cases h
  · next e =>
    cases h
    exact hx _ err _ hp e

theorem eachSlot {f : ItemPath → Slot → ResolveM Unit} (hf : ∀ p s, Spares P (f p s)) (paths : List ItemPath) :
    Spares P (Check.eachSlot paths f) := by
  refine .forM fun p _ => .bind .get fun r => ?_
  split
  · split
    · exact .pure _
    · exact hf _ _
  · exact .pure _

end Spares

theorem spares_fail {cause : TypeError.Cause} (hc : ¬P cause) (span : Span) :
    Spares P (ResolveM.fail cause span : ResolveM α) := by
  intro r err r' hp h
  cases h
  exact hc hp

theorem spares_collect (hd : ∀ name, ¬P (.duplicate name)) (item : Item) : Spares P (collect item) := by
  cases item
  case decl d =>
    refine .bind .get fun r => .bind .get fun r' => ?_
    split
    · exact .bind (spares_fail (hd _) _) fun _ => .modify _
    · exact .modify _
  case func => exact .modify _
  all_goals exact .pure _

theorem spares_mergeAssignment (hu : ∀ name, ¬P (.undefined name)) (hs : ¬P .secondAssignment) (p : ItemPath)
    (s : Slot) : Spares P (mergeAssignment p s) := by
  cases hk : s.item
  all_goals simp only [mergeAssignment, hk]
  case assign a =>
    refine .bind (.bind .get fun r => ?_) fun d => .bind .get fun r => ?_
    · split
      · exact .pure _
      · exact spares_fail (hu _) _
    · split
      · exact .bind (spares_fail hs _) fun _ => .modify _
      · exact .modify _
  all_goals exact .pure _

-- Errors of typing are put on record.
theorem spares_declareAll (order : List DeclId) (fs : List FuncId) : Spares P (declareAll order fs) :=
  .bind (.forM fun _ _ => .attempt _) fun _ => .forM fun _ _ => .attempt _

theorem spares_checkAll : Spares P checkAll := by
  refine .bind (.bind .get fun _ => .pure _) fun m => .forM fun p _ => .bind (.bind .get fun _ => .pure _) fun m => ?_
  split
  · exact .attempt _
  · exact .pure _

theorem spares_defined (allowUndefined : Bool) (d : DeclId) : Spares P (defined allowUndefined d) := by
  refine .bind (.bind .get fun _ => .pure _) fun m => ?_
  dsimp only
  split
  · exact .pure _
  · split
    · exact .modify _
    · split
      · exact .modify _
      · exact .pure _

-- A check of the items fails only where their resolution fails.
theorem items_failed {allowUndefined : Bool} {m m' : Model} {err : TypeError} :
    Check.items allowUndefined m = .error (.failed err) m' ↔
      ∃ r, resolveItems m.itemPaths { model := m } = .error (.failed err) r ∧ r.model = m' := by
  rw [Check.items, get_bind, bind_eq_error]
  constructor
  · rintro (h | ⟨⟨_, order⟩, m₂, _, h⟩)
    · simp only [ModelM.resolving] at h
      split at h
      · cases h
      · next r hx =>
        cases h
        exact ⟨r, hx, rfl⟩
    · refine absurd h (Spares.bind (P := fun _ => True) (.modify _) (fun _ => ?_) _ _ _ trivial)
      refine .bind (.checking (spares_declareAll _ _)) fun _ => .bind (.checking spares_checkAll) fun _ => ?_
      exact .bind (.checking (.forM fun d _ => spares_defined _ d)) fun _ => .pure _
  · rintro ⟨r, hx, rfl⟩
    exact .inl (by simp only [ModelM.resolving, hx])

end Spares

section Merging

variable {m m' : Model} {r r' : Resolution} {paths : List ItemPath} {name : String} {span : Span}

-- The declarations are collected and the assignments merged into them; nothing is resolved yet.
def Check.Merges (m m₁ : Model) : Prop :=
  ∃ r, (do
    eachSlot m.itemPaths fun _ s => collect s.item
    eachSlot m.itemPaths mergeAssignment : ResolveM Unit) { model := m } = .ok () r ∧ r.model = m₁

-- Names are in scope as they are declared, and no declaration is open or annotated.
structure Resolve.Unopened (r : Resolution) : Prop where
  scope : ∀ name d, (name, d) ∈ r.scope → (r.model.decl d).name = name
  active : r.active = []
  ann : ∀ d, (r.model.decl d).ann = []

-- A run that has opened nothing.
def Resolve.Opening (r r' : Resolution) : Prop := Unopened r → Unopened r'

instance : Std.Refl Opening := ⟨fun _ => id⟩

instance : IsTrans Resolution Opening := ⟨fun _ _ _ h₁ h₂ => h₂ ∘ h₁⟩

theorem keeps_collect (item : Item) : Keeps Opening (collect item) := by
  cases item
  case decl d =>
    have hpush : Keeps Opening (ResolveM.push d) := by
      refine .modify fun r hr => ⟨fun name c hc => ?_, hr.active, hr.ann⟩
      obtain h | hc := List.mem_cons.mp hc
      · cases h
        rfl
      · exact hr.scope name c hc
    refine .bind .get fun r => .bind .get fun r' => ?_
    split
    · exact .bind (.throw _) fun _ => hpush
    · exact hpush
  case func f =>
    refine .modify fun r hr => ?_
    have ⟨os, hos⟩ := register_eq r.model f
    have hdecl : (r.model.register f).decl = r.model.decl := by
      rw [hos]
      rfl
    exact ⟨hdecl ▸ hr.scope, hr.active, hdecl ▸ hr.ann⟩
  all_goals exact .pure _

theorem keeps_merge (p : ItemPath) (s : Slot) : Keeps Opening (mergeAssignment p s) := by
  cases hk : s.item
  all_goals simp only [mergeAssignment, hk]
  case assign a =>
    have hset : ∀ d, Keeps Opening (ResolveM.changeModel (setAssigned p d a.value)) := by
      refine fun d => .modify fun r hr => ⟨fun name c hc => ?_, hr.active, fun c => ?_⟩
      · rw [name_setAssigned]
        exact hr.scope name c hc
      · have hc := hr.ann c
        obtain h | h := @decl_setAssigned d r.model p a.value c <;> rw [h] <;> exact hc
    refine .bind (.bind .get fun r => ?_) fun d => .bind .get fun r => ?_
    · split
      · exact .pure _
      · exact .throw _
    · split
      · exact .bind (.throw _) fun _ => hset d
      · exact hset d
  all_goals exact .pure _

theorem resolveItems_circular (hann : ∀ d, (m.decl d).ann = [])
    (hx : resolveItems m.itemPaths { model := m } = .error (.failed ⟨.circular name, span⟩) r') :
    ∃ m₁, Check.Merges m m₁ ∧ m₁.Circular name := by
  let merging : ResolveM Unit := do
    eachSlot m.itemPaths fun _ s => collect s.item
    eachSlot m.itemPaths mergeAssignment
  have hspares : Spares (fun c => ∃ name, c = .circular name) merging :=
    .bind (.eachSlot (fun _ s => spares_collect (by simp) s.item) _) fun _ =>
      .eachSlot (spares_mergeAssignment (by simp) (by simp)) _
  have hkeeps : Keeps Opening merging :=
    .bind (keeps_eachSlot (fun _ s => keeps_collect s.item) _) fun _ => keeps_eachSlot keeps_merge _
  have hsplit : resolveItems m.itemPaths = merging >>= fun _ =>
      eachSlot m.itemPaths fun _ s => resolveItem s.item := by
    rw [resolveItems, bind_assoc]
  rw [hsplit, bind_eq_error] at hx
  obtain hx | ⟨_, r, hr, hx⟩ := hx
  · exact absurd hx (hspares _ _ _ ⟨name, rfl⟩)
  · have hopen := hkeeps.of_ok hr ⟨fun _ _ h => (by cases h), rfl, hann⟩
    have hpath : Path r.model r := ⟨.refl _, hopen.scope, hopen.active ▸ .nil⟩
    exact ⟨r.model, ⟨r, hr, rfl⟩, (honest_resolvedItems hopen.ann _ r hpath hopen.active).2 name span r' hx⟩

theorem items_circular {allowUndefined : Bool} (hann : ∀ d, (m.decl d).ann = [])
    (h : Check.items allowUndefined m = .error (.failed ⟨.circular name, span⟩) m') :
    ∃ m₁, Check.Merges m m₁ ∧ m₁.Circular name := by
  obtain ⟨r, hx, -⟩ := items_failed.mp h
  exact resolveItems_circular hann hx

-- If a check finds a circular definition of a name, then a declaration of that name reaches itself
-- through what the type-insts and initializers of declarations cite.
theorem circular_reaches_itself {opts : CheckOptions} (hann : ∀ d, (m.decl d).ann = [])
    (h : check opts m = .error (.failed ⟨.circular name, span⟩) m') :
    ∃ m₁, Check.Merges (if opts.library then m.withLibrary else m) m₁ ∧ m₁.Circular name := by
  rw [check] at h
  split at h
  · next hl =>
    rw [if_pos hl]
    refine items_circular (fun d => ?_) h
    by_cases hd : d.index < m.decls.size
    · rw [m.extends_withLibrary.decl_eq hd]
      exact hann d
    · exact ((Stocked.withLibrary m).newDecls d (Nat.le_of_not_lt hd)).2
  · next hl =>
    rw [if_neg hl]
    exact items_circular hann h

end Merging

section Example

-- `int: x = let { int: l = y } in l; int: y; y = x;`, with the assignment merged or not.
def circleModel (init : Option ExprId) (assigned : Slot) : Model where
  exprs := #[{ kind := .ident "y" none }, { kind := .ident "l" none }, { kind := .letIn ⟨[.decl ⟨2⟩], ⟨1⟩, []⟩ },
    { kind := .ident "x" none }]
  decls := #[{ name := "x", ti := ⟨0⟩, init := some ⟨2⟩, toplevel := true },
    { name := "y", ti := ⟨1⟩, init, toplevel := true }, { name := "l", ti := ⟨2⟩, init := some ⟨0⟩ }]
  typeInsts := #[{ ty := .parInt }, { ty := .parInt }, { ty := .parInt }]
  items := #[{ item := .decl ⟨0⟩ }, { item := .decl ⟨1⟩ }, assigned]

theorem circular_reaches_itself_let :
    let m := circleModel none { item := .assign ⟨"y", ⟨3⟩, none⟩ }
    let m' := circleModel (some ⟨3⟩) { item := .assign ⟨"y", ⟨3⟩, some ⟨1⟩⟩, removed := true }
    check { library := false } m = .error (.failed ⟨.circular "x", {}⟩) m' ∧ (∀ d, (m.decl d).ann = []) ∧
      ∃ m₁, Check.Merges m m₁ ∧ m₁.Circular "x" := by
  intro m m'
  have h : check { library := false } m = .error (.failed ⟨.circular "x", {}⟩) m' := by cbv
  have hann : ∀ d, (m.decl d).ann = [] := by
    rintro ⟨i⟩
    rcases i with _ | _ | _ | _ <;> rfl
  have hcircle := circular_reaches_itself hann h
  rw [if_neg (by decide)] at hcircle
  exact ⟨h, hann, hcircle⟩

end Example

section Order

-- `ann: x :: y; ann: y = x;`, in some order.
def annotatedModel (items : Array Slot) (kinds : List ExprKind) (ty : Ty) : Model where
  exprs := (kinds.map fun kind => { kind, ty }).toArray
  decls := #[{ name := "x", ti := ⟨0⟩, ann := [⟨0⟩], toplevel := true, ty },
    { name := "y", ti := ⟨1⟩, init := some ⟨1⟩, toplevel := true, ty }]
  typeInsts := #[{ ty := .ann }, { ty := .ann }]
  items
  overloads := [("int2float", [])]

-- The annotations of a declaration are no part of its definition, but they are resolved within the
-- definition that comes to it first.
theorem order_closes_circle :
    let x : Slot := { item := .decl ⟨0⟩ }
    let y : Slot := { item := .decl ⟨1⟩ }
    let unresolved := [ExprKind.ident "y" none, .ident "x" none]
    check { library := false } (annotatedModel #[x, y] unresolved .unknown) =
        .ok ⟨[], [⟨0⟩, ⟨1⟩]⟩ (annotatedModel #[x, y] [.ident "y" (some ⟨1⟩), .ident "x" (some ⟨0⟩)] .ann) ∧
      check { library := false } (annotatedModel #[y, x] unresolved .unknown) =
        .error (.failed ⟨.circular "y", {}⟩) (annotatedModel #[y, x] unresolved .unknown) := by
  intro x y unresolved
  exact ⟨by cbv, by cbv⟩

end Order
end Parvar
