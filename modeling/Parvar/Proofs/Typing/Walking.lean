import Parvar.Proofs.Typing.Stages

/-!
Typing of whole expressions. The parts of a node are typed one after another, each where it is still as it
was, and with them the node is settled.
-/

namespace Parvar

open Model Typing

namespace Model

section Definitions

variable (m : Model) (root : Site)

-- Nothing below the node has changed.
def Fresh (s : Site) (m₁ : Model) : Prop := ∀ c, m.Contains s c → m.SameAt m₁ c

-- From `m₁` to `m₂` the given nodes have been typed.
structure Types (n : Nat) (cs : List Site) (m₁ m₂ : Model) : Prop where
  ongoing : m.Ongoing root m₂
  alters : m₁.Alters (fun x => ∃ c ∈ cs, m.Contains c x) m₂
  kept : ∀ {d}, (m₁.decl d).ty.Known → (∀ c ∈ cs, ¬m.RangesIn c d) → (m₂.decl d).ty = (m₁.decl d).ty
  done : ∀ c ∈ cs, m.Visited n c m₂

-- A way to type the nodes below the root.
structure Visiting (n : Nat) (visit : Visit) : Prop where
  quiet : ∀ s, Upholds Checking.Reported (visit s)
  types : ∀ {s m₁ m₂}, m.Contains root s → m.Ongoing root m₁ → m.Fresh s m₁ → Runs (visit s) m₁ ⟨⟩ m₂ →
    m.Types root n [s] m₁ m₂

variable (n : Nat) (e : ExprId) (m₁ m₂ : Model)

-- The parts of an expression have been typed, and the names of its generators have the types of their sources.
structure Gathers : Prop where
  ongoing : m.Ongoing root m₂
  alters : m₁.Alters (fun x => ∃ c ∈ (m.kind e).parts Generator.parts, m.Contains c x) m₂
  kept : ∀ {d}, (m₁.decl d).ty.Known → ¬m.RangesIn (.expr e) d → (m₂.decl d).ty = (m₁.decl d).ty
  done : ∀ c ∈ (m.kind e).parts Generator.uses, m.Visited n c m₂
  ranges : ∀ c, m.kind e = .comp c → ∀ g ∈ c.generators, m₂.Ranges g

-- The expression has been typed up to its annotations. Where a part was wrapped, the call stands in its place.
structure Completes : Prop where
  ongoing : m.Ongoing root m₂
  alters : m₁.Alters (fun x => x = .expr e ∨ ∃ c ∈ (m.kind e).parts Generator.parts, m.Contains c x) m₂
  kept : ∀ {d}, (m₁.decl d).ty.Known → ¬m.RangesIn (.expr e) d → (m₂.decl d).ty = (m₁.decl d).ty
  ann : (m₂.expr e).ann = (m.expr e).ann
  settled : m₂.SettledAs e (m₂.kind e)
  typed : (m₂.ty e).Concrete ∧ (m₂.kind e).isAnon = false
  parts : ∀ c ∈ (m₂.kind e).parts Generator.uses, ∃ o ∈ (m.kind e).parts Generator.uses, m.Done (n + 1) o c m₂

end Definitions

variable {m m₀ m₁ m₂ m₃ : Model} {root c p s : Site} {n : Nat} {cs ds : List Site} {visit : Visit} {e : ExprId}

section Basics

theorem SameAt.trans (h₁ : m.SameAt m₁ s) (h₂ : m₁.SameAt m₂ s) : m.SameAt m₂ s := by
  cases s <;> exact Eq.trans h₂ h₁

theorem Fresh.part (h : m.Fresh p m₁) (hc : c ∈ m.parts p) : m.Fresh c m₁ := fun x hx => h x (.head hc hx)

theorem Fresh.alters {P : Site → Prop} (h : m.Fresh s m₁) (hm : m.Tree root) (hs : m.Contains root s)
    (ho : m.Alters (m.Contains root) m₁) (ha : m₁.Alters P m₂) (hP : ∀ {x}, m.Contains s x → ¬P x) : m.Fresh s m₂ :=
  fun x hx => (h x hx).trans (ha.same (ho.present (hm.present (hs.trans hx))) (hP hx))

theorem Types.nil (ho : m.Ongoing root m₁) : m.Types root n [] m₁ m₁ where
  ongoing := ho
  alters := .refl _ _
  kept _ _ := rfl
  done _ h := by cases h

theorem Types.append (hm : m.Checkable root) (hcs : ∀ c ∈ cs, m.Contains root c) (hds : ∀ c ∈ ds, m.Contains root c)
    (hsep : ∀ c ∈ cs, ∀ d ∈ ds, m.Separate c d) (h₁ : m.Types root n cs m₁ m₂) (h₂ : m.Types root n ds m₂ m₃) :
    m.Types root n (cs ++ ds) m₁ m₃ where
  ongoing := h₂.ongoing
  alters := by
    refine (h₁.alters.mono ?_).trans (h₂.alters.mono ?_)
    · rintro x ⟨c, hc, hx⟩
      exact ⟨c, List.mem_append_left _ hc, hx⟩
    · rintro x ⟨c, hc, hx⟩
      exact ⟨c, List.mem_append_right _ hc, hx⟩
  kept {d} hk hn := by
    have h := h₁.kept hk fun c hc => hn c (List.mem_append_left _ hc)
    rw [← h] at hk
    exact (h₂.kept hk fun c hc => hn c (List.mem_append_right _ hc)).trans h
  done c hc := by
    rcases List.mem_append.mp hc with hc | hc
    · refine (h₁.done c hc).alters hm h₁.ongoing h₂.ongoing h₂.alters ?_ ?_
      · rintro x ⟨d, hd, hx⟩
        exact ⟨hm.tree.present ((hds d hd).trans hx), fun hcx => hsep c hc d hd x hcx hx⟩
      · intro y name d hy hk hknown
        exact h₂.kept hknown fun b hb => hm.not_rangesIn ((hcs c hc).trans hy) (hds b hb) (hsep c hc b hb _ hy) hk
    · exact h₂.done c hc

end Basics

theorem Checked.mono {k : Nat} (h : m.Checked n s) (hk : n ≤ k) : m.Checked k s := by
  induction n generalizing k s with
  | zero => exact h.elim
  | succ n ih =>
    obtain ⟨k, rfl⟩ := Nat.exists_eq_add_of_le' (Nat.le_trans (Nat.le_add_left 1 n) hk)
    exact ⟨h.1, h.2.1, fun c hc => ih (h.2.2 c hc) (Nat.le_of_succ_le_succ hk)⟩

section Visits

variable (hm : m.Checkable root) (hv : m.Visiting root n visit) (hp : m.Contains root p)

include hm hv hp

-- Parts of a node are typed in any order. After each of them something may be checked.
theorem Visiting.each {α : Type} {as : List α} {site : α → Site} {f : α → CheckM PUnit} {Q : α → Model → Prop}
    (hq : ∀ a, Upholds Checking.Reported (f a))
    (hf : ∀ {a m₁ m₂}, Runs (f a) m₁ ⟨⟩ m₂ → Runs (visit (site a)) m₁ ⟨⟩ m₂ ∧ Q a m₂)
    (hQ : ∀ {a m₁ m₂}, m₁.SameAt m₂ (site a) → Q a m₁ → Q a m₂) (has : ∀ a ∈ as, site a ∈ m.parts p)
    (hn : (as.map site).Nodup) (ho : m.Ongoing root m₁) (hfresh : ∀ a ∈ as, m.Fresh (site a) m₁)
    (h : Runs (as.forM f) m₁ ⟨⟩ m₂) : m.Types root n (as.map site) m₁ m₂ ∧ ∀ a ∈ as, Q a m₂ := by
  induction as generalizing m₁ with
  | nil =>
    cases h
    exact ⟨.nil ho, fun _ h => by cases h⟩
  | cons a as ih =>
    obtain ⟨ha, has⟩ := List.forall_mem_cons.mp has
    obtain ⟨hfa, hfresh⟩ := List.forall_mem_cons.mp hfresh
    obtain ⟨hna, hn⟩ := List.nodup_cons.mp hn
    obtain ⟨_, m', h₁, h⟩ := Runs.bind_inv (fun _ => .forM fun s _ => hq s) h
    obtain ⟨h₁, hQa⟩ := hf h₁
    have ht := hv.types (hp.part ha) ho hfa h₁
    have hsep : ∀ b ∈ as, m.Separate (site a) (site b) := fun b hb =>
      hm.tree.separate hp ha (has b hb) fun heq => hna (heq ▸ List.mem_map_of_mem hb)
    have hrest := ih has hn ht.ongoing (fun b hb => ?_) h
    · refine ⟨Types.append hm ?_ ?_ ?_ ht hrest.1, List.forall_mem_cons.mpr ⟨hQ ?_ hQa, hrest.2⟩⟩
      · exact fun d hd => List.mem_singleton.mp hd ▸ hp.part ha
      · exact List.forall_mem_map.mpr fun b hb => hp.part (has b hb)
      · exact fun c hc => List.forall_mem_map.mpr fun b hb => List.mem_singleton.mp hc ▸ hsep b hb
      · refine hrest.1.alters.same (((ht.done _ (List.mem_singleton.mpr rfl)).reach .refl).1) ?_
        rintro ⟨c, hc, hca⟩
        obtain ⟨b, hb, rfl⟩ := List.mem_map.mp hc
        exact hsep b hb _ .refl hca
    · refine (hfresh b hb).alters hm.tree (hp.part (has b hb)) ho.alters ht.alters ?_
      rintro x hx ⟨c, hc, hcx⟩
      exact hsep b hb x (List.mem_singleton.mp hc ▸ hcx) hx

theorem Visiting.sites (hcs : ∀ c ∈ cs, c ∈ m.parts p) (hn : cs.Nodup) (ho : m.Ongoing root m₁)
    (hf : ∀ c ∈ cs, m.Fresh c m₁) (h : Runs (cs.forM visit) m₁ ⟨⟩ m₂) : m.Types root n cs m₁ m₂ := by
  have hid : (cs.map id).Nodup := by rwa [List.map_id]
  have h : m.Types root n (cs.map id) m₁ m₂ :=
    (hv.each hm hp (Q := fun _ _ => True) hv.quiet (fun h => ⟨h, trivial⟩) (fun _ h => h) hcs hid ho hf h).1
  rwa [List.map_id] at h

theorem Visiting.annotations {as : List ExprId} (has : ∀ a ∈ as, .expr a ∈ m.parts p) (hn : (as.map Site.expr).Nodup)
    (ho : m.Ongoing root m₁) (hf : ∀ a ∈ as, m.Fresh (.expr a) m₁) (h : Runs (annotations visit as) m₁ ⟨⟩ m₂) :
    m.Types root n (as.map .expr) m₁ m₂ ∧ ∀ a ∈ as, (m₂.ty a).isAnn := by
  have hcheck : ∀ x : Operand, Upholds Checking.Reported
      (if !x.ty.isAnn then CheckM.fail (.annotationTy x.ty) x.span else pure ⟨⟩ : CheckM PUnit) := by
    intro x
    split
    · exact .fail _ _
    · exact .done _
  refine hv.each hm hp (Q := fun a m => (m.ty a).isAnn) (fun a => ?_) ?_ ?_ has hn ho hf h
  · exact .seq (hv.quiet _) fun _ => .seq (.operand a) hcheck
  · intro a m₁ m₂ h
    obtain ⟨_, m', h₁, h⟩ := Runs.bind_inv (fun _ => .seq (.operand a) hcheck) h
    rw [Runs, checkM_operand_bind] at h
    split at h
    · cases h
    · next hann =>
      cases h
      rw [Bool.not_eq_true, Bool.not_eq_false'] at hann
      exact ⟨h₁, hann⟩
  · intro a m₁ m₂ hs ha
    have hs : m₂.expr a = m₁.expr a := hs
    rw [ty, hs]
    exact ha

end Visits

section Nodes

theorem Done.mono {o : Site} {k : Nat} (h : m.Done n o s m₁) (hk : n ≤ k) : m.Done k o s m₁ := ⟨h.checked.mono hk, h.reach⟩

theorem Done.of_uses {o : Site} (hs : m₁.Settled s) (hann : ∀ a ∈ m₁.annOf s, (m₁.ty a).isAnn) (hp : m₁.Present s)
    (ho : m.Contains o s ∨ ¬m.Present s) (hc : ∀ c ∈ m₁.uses s, ∃ b, m.Contains o b ∧ m.Done n b c m₁) :
    m.Done (n + 1) o s m₁ := by
  refine ⟨⟨hs, hann, fun c hmem => ?_⟩, fun {x} hx => ?_⟩
  · obtain ⟨b, -, hd⟩ := hc c hmem
    exact hd.checked
  · rcases Relation.ReflTransGen.cases_head hx with rfl | ⟨c, hmem, hx⟩
    · exact ⟨hp, ho⟩
    · obtain ⟨b, hob, hd⟩ := hc c hmem
      exact (hd.reach hx).imp_right (Or.imp_left hob.trans)

-- A call of a coercion around a node that has been typed.
theorem Done.wrapped {o : Site} {a b : ExprId} {name : String} {f : FuncId} {t : Ty} (hd : m.Done n o (.expr a) m₁)
    (hb : m₁.expr b = m₁.callOn name f a t) (happ : m₁.Applies name [a] (m₁.spanOf a) f t)
    (hnew : ¬m.Present (.expr b)) (hp : m₁.Present (.expr b)) : m.Done (n + 1) o (.expr b) m₁ := by
  have hk : m₁.kind b = .call name [a] (some f) := by rw [kind, hb, callOn]
  have hann : (m₁.expr b).ann = [] := by rw [hb, callOn]
  refine .of_uses ?_ ?_ hp (.inr hnew) ?_
  · rw [Settled, hk]
    refine ⟨f, ?_, rfl⟩
    rw [ty, spanOf, hb, callOn]
    exact happ
  · rw [annOf, hann]
    exact fun c hc => by cases hc
  · rw [uses, partsBy, hk, hann]
    exact fun c hc => ⟨o, .refl, List.mem_singleton.mp hc ▸ hd⟩

variable (hm : m.Checkable root) (hr : m.Contains root (.expr e))

include hm hr

theorem Checkable.ne_part (hc : c ∈ (m.kind e).parts Generator.parts) : ¬m.Contains c (.expr e) :=
  hm.tree.not_contains_of_mem hr (List.mem_append_left _ hc)

theorem Gathers.expr_eq (hg : m.Gathers root n e m₁ m₂) (ho : m.Ongoing root m₁) (hf : m.Fresh (.expr e) m₁) :
    m₂.expr e = m.expr e := by
  refine (hg.alters.expr_eq (ho.alters.present (hm.tree.present hr)) ?_).trans (hf _ .refl)
  rintro ⟨c, hc, hce⟩
  exact hm.ne_part hr hc hce

theorem Gathers.typeable (hg : m.Gathers root n e m₁ m₂) (he : m₂.expr e = m.expr e) : m₂.Typeable e where
  promotes := (hg.ongoing.heads hm).promotes hm.promotes
  regular := (hg.ongoing.heads hm).regular hm.regular
  present := hg.ongoing.alters.present (hm.tree.present hr)
  part {a} ha := by
    rw [kind, he] at ha
    have hv := hg.done _ ha
    refine ⟨(hv.reach .refl).1, ?_, (hv.typed rfl).1, (hv.typed rfl).2⟩
    rintro rfl
    exact hm.ne_part hr (ExprKind.parts_subset _ ha) .refl

-- Parts that were typed stay as they are, and a call around one of them has been typed too.
theorem Gathers.finished {k : ExprKind} {t : Ty} {m' : Model} (hg : m.Gathers root n e m₁ m₂) (he : m₂.expr e = m.expr e)
    (ho : m.Ongoing root (m'.setNode e k t)) (hs : m₂.Settles e m' k t) :
    ∀ c ∈ k.parts Generator.uses, ∃ o ∈ (m.kind e).parts Generator.uses, m.Done (n + 1) o c (m'.setNode e k t) := by
  have hke : m₂.kind e = m.kind e := by rw [kind, he, kind]
  have hpres : e.index < m₂.exprs.size := hg.ongoing.alters.present (hm.tree.present hr)
  have ha : m₂.Alters (· = .expr e) (m'.setNode e k t) := Finishes.alters hpres ⟨m', k, t, rfl, hs⟩
  have hdone : ∀ c ∈ (m.kind e).parts Generator.uses, m.Done n c c (m'.setNode e k t) := by
    intro c hc
    refine (hg.done c hc).toDone.alters hm hg.ongoing ho ha ?_ ?_
    · rintro x rfl
      exact ⟨hm.tree.present hr, hm.ne_part hr (ExprKind.parts_subset _ hc)⟩
    · intro y name d _ _ _
      rw [ha.decl_eq fun h => by cases h]
  intro c hc
  rcases hs.parts _ c hc with hc | ⟨b, rfl, hold, hnew⟩
  · rw [hke] at hc
    exact ⟨c, hc, (hdone c hc).mono (Nat.le_succ n)⟩
  · obtain ⟨a, name, f, u, hpart, hx, happ⟩ := hs.wraps.added hold hnew
    rw [hke] at hpart
    have hne : b ≠ e := by
      rintro rfl
      exact Nat.not_lt.mpr hold hpres
    have hae : a ≠ e := by
      rintro rfl
      exact hm.ne_part hr (ExprKind.parts_subset _ hpart) .refl
    have heq := ha.expr_eq ((hg.done _ hpart).reach .refl).1 fun h => hae (Site.expr.inj h)
    have hspan : (m'.setNode e k t).spanOf a = m₂.spanOf a := by rw [spanOf, heq, spanOf]
    have hcall : (m'.setNode e k t).expr b = (m'.setNode e k t).callOn name f a u := by
      rw [expr_setNode_ne hne, hx, callOn, callOn, hspan]
    refine ⟨.expr a, hpart, (hdone _ hpart).wrapped hcall ?_ ?_ ?_⟩
    · rw [hspan]
      refine happ.congr ((hg.ongoing.heads hm).symm.trans (ho.heads hm)) fun x hx => ?_
      rw [List.mem_singleton.mp hx, ty, heq, ty]
    · exact fun h => Nat.not_lt.mpr hold (hg.ongoing.alters.present (s := .expr b) h)
    · simpa [Present, setNode, setTy, setKind, modifyExpr] using hnew

theorem Gathers.completes (hg : m.Gathers root n e m₁ m₂) (ho : m.Ongoing root m₁) (hf : m.Fresh (.expr e) m₁)
    (h : Runs (finish e (m.kind e)) m₂ ⟨⟩ m₃) : m.Completes root n e m₁ m₃ := by
  have he := hg.expr_eq hm hr ho hf
  have hpres : e.index < m₂.exprs.size := hg.ongoing.alters.present (hm.tree.present hr)
  have hfin : m₂.Finishes e m₃ := by
    refine finishes_finish (hg.typeable hm hr he) ?_ (fun hk => ?_) (hm.node hr).2 hg.ongoing.declared hg.ranges h
    · rw [kind, he, kind]
    · rw [ty, he]
      exact (hm.node hr).1 hk
  have ha := hfin.alters hpres
  have ho₃ := hg.ongoing.finishes hr hpres hfin
  obtain ⟨m', k, t, rfl, hs⟩ := hfin
  have hpres' : e.index < m'.exprs.size := Nat.lt_of_lt_of_le hpres hs.wraps.grows.size_le
  refine ⟨ho₃, ?_, fun {d} hk hn => ?_, ?_, ?_, ?_, ?_⟩
  · exact (hg.alters.mono fun x hx => .inr hx).trans (ha.mono fun x hx => .inl hx)
  · rw [ha.decl_eq fun h => by cases h]
    exact hg.kept hk hn
  · rw [expr_setNode_self hpres', hs.wraps.grows.expr_eq hpres, he]
  · rw [kind_setNode hpres']
    exact hs.settled
  · rw [kind_setNode hpres', ty_setNode hpres']
    exact ⟨hs.concrete, hs.named⟩
  · rw [kind_setNode hpres']
    exact hg.finished hm hr he ho₃ hs

end Nodes

section Annotations

variable (hm : m.Checkable root) (hr : m.Contains root (.expr e))

include hm hr

theorem Checkable.separate_ann {a : ExprId} (hc : c ∈ (m.kind e).parts Generator.parts) (ha : a ∈ (m.expr e).ann) :
    m.Separate c (.expr a) := by
  have ha := List.mem_map_of_mem (f := Site.expr) ha
  have hne := (List.nodup_append'.mp (hm.tree.once hr)).2.2
  exact hm.tree.separate hr (List.mem_append_left _ hc) (List.mem_append_right _ ha) fun heq => hne hc (heq ▸ ha)

theorem Completes.annotated (hc : m.Completes root n e m₁ m₂) (hv : m.Visiting root n visit) (ho : m.Ongoing root m₁)
    (hf : m.Fresh (.expr e) m₁) (h : Runs (annotations visit (m₂.expr e).ann) m₂ ⟨⟩ m₃) :
    m.Types root n ((m.expr e).ann.map .expr) m₂ m₃ ∧ ∀ a ∈ (m.expr e).ann, (m₃.ty a).isAnn := by
  rw [hc.ann] at h
  have has : ∀ a ∈ (m.expr e).ann, .expr a ∈ m.parts (.expr e) := fun a ha =>
    List.mem_append_right _ (List.mem_map_of_mem ha)
  refine hv.annotations hm hr has (List.nodup_append'.mp (hm.tree.once hr)).2.1 hc.ongoing (fun a ha => ?_) h
  refine (hf.part (has a ha)).alters hm.tree (hr.part (has a ha)) ho.alters hc.alters ?_
  rintro x hx (rfl | ⟨c, hmem, hcx⟩)
  · exact hm.tree.not_contains_of_mem hr (has a ha) hx
  · exact hm.separate_ann hr hmem ha x hcx hx

-- The annotations have no part in the rest of the expression.
theorem Completes.after (hc : m.Completes root n e m₁ m₂) (ht : m.Types root n ((m.expr e).ann.map .expr) m₂ m₃) :
    m₃.expr e = m₂.expr e ∧ m₃.SettledAs e (m₂.kind e) ∧
      ∀ c ∈ (m₂.kind e).parts Generator.uses, ∃ o ∈ (m.kind e).parts Generator.uses, m.Done (n + 1) o c m₃ := by
  have hann : ∀ {x}, (∃ c ∈ (m.expr e).ann.map Site.expr, m.Contains c x) →
      ∃ a ∈ (m.expr e).ann, m.Contains (.expr a) x := by
    rintro x ⟨_, hmem, hx⟩
    obtain ⟨a, ha, rfl⟩ := List.mem_map.mp hmem
    exact ⟨a, ha, hx⟩
  have hin : ∀ a ∈ (m.expr e).ann, m.Contains root (.expr a) ∧ ¬m.Contains (.expr a) (.expr e) := fun a ha =>
    have hmem := List.mem_append_right _ (List.mem_map_of_mem ha)
    ⟨hr.part hmem, hm.tree.not_contains_of_mem hr hmem⟩
  have hnamed : ∀ {y name d}, m.Contains root (.expr y) → (∀ a ∈ (m.expr e).ann, ¬m.Contains (.expr a) (.expr y)) →
      m.kind y = .ident name (some d) → (m₂.decl d).ty.Known → (m₃.decl d).ty = (m₂.decl d).ty := fun hy hn hk hknown =>
    ht.kept hknown (List.forall_mem_map.mpr fun a ha => hm.not_rangesIn hy (hin a ha).1 (hn a ha) hk)
  have hparts : ∀ c ∈ (m₂.kind e).parts Generator.uses, ∃ o ∈ (m.kind e).parts Generator.uses,
      m₂.Agrees (m₂.Uses c) m₃ ∧ m.Done (n + 1) o c m₃ := by
    intro c hmem
    obtain ⟨o, ho, hd⟩ := hc.parts c hmem
    have hop := ExprKind.parts_subset _ ho
    have hP : ∀ {x}, (∃ c ∈ (m.expr e).ann.map Site.expr, m.Contains c x) → m.Present x ∧ ¬m.Contains o x := by
      intro x hx
      obtain ⟨a, ha, hx⟩ := hann hx
      exact ⟨hm.tree.present ((hin a ha).1.trans hx), fun hox => hm.separate_ann hr hop ha x hox hx⟩
    have hname : ∀ {y name d}, m.Contains o (.expr y) → m.kind y = .ident name (some d) → (m₂.decl d).ty.Known →
        (m₃.decl d).ty = (m₂.decl d).ty := fun hy =>
      hnamed ((hr.part (List.mem_append_left _ hop)).trans hy) fun a ha hay => hm.separate_ann hr hop ha _ hy hay
    exact ⟨o, ho, hd.agrees hm hc.ongoing ht.ongoing ht.alters hP hname,
      hd.alters hm hc.ongoing ht.ongoing ht.alters hP hname⟩
  have he : m₃.expr e = m₂.expr e := by
    refine ht.alters.expr_eq (hc.ongoing.alters.present (hm.tree.present hr)) fun hx => ?_
    obtain ⟨a, ha, hx⟩ := hann hx
    exact (hin a ha).2 hx
  have hagree : m₂.Agrees (fun s => ∃ c ∈ (m₂.kind e).parts Generator.uses, m₂.Uses c s) m₃ :=
    .union ((hc.ongoing.heads hm).symm.trans (ht.ongoing.heads hm)) ht.alters.typeInsts fun c hmem => by
      obtain ⟨o, -, h, -⟩ := hparts c hmem
      exact h
  refine ⟨he, hagree.settledAs he (fun c hmem => ⟨c, hmem, .refl⟩) ?_ ?_ hc.settled, fun c hmem => ?_⟩
  · intro c hk g hg d hd
    have hke := hc.ongoing.plain e (by rw [hk]; rfl)
    have hmem : .decl d ∈ (m.kind e).parts Generator.parts := by
      rw [← hke, hk]
      exact decl_mem_parts hg hd
    have hout : ∀ {x}, m.Contains (.decl d) x → ¬∃ c ∈ (m.expr e).ann.map Site.expr, m.Contains c x := by
      intro x hdx hx
      obtain ⟨a, ha, hx⟩ := hann hx
      exact hm.separate_ann hr hmem ha x hdx hx
    refine ⟨ht.alters.decl_eq (hout .refl), ht.alters.typeInst_eq (hout ?_)⟩
    rw [hc.ongoing.tis]
    exact .single List.mem_cons_self
  · intro name d hk
    have hke := hc.ongoing.plain e (by rw [hk]; rfl)
    have hset := hc.settled
    rw [hk] at hset
    exact hnamed hr (fun a ha => (hin a ha).2) (hke ▸ hk) hset.1
  · obtain ⟨o, ho, -, hd⟩ := hparts c hmem
    exact ⟨o, ho, hd⟩

-- With its annotations the expression is settled.
theorem Completes.types (hc : m.Completes root n e m₁ m₂) (hv : m.Visiting root n visit) (ho : m.Ongoing root m₁)
    (hf : m.Fresh (.expr e) m₁) (h : Runs (annotations visit (m₂.expr e).ann) m₂ ⟨⟩ m₃) :
    m.Types root (n + 2) [.expr e] m₁ m₃ := by
  obtain ⟨ht, hann⟩ := hc.annotated hm hr hv ho hf h
  obtain ⟨he, hset, hparts⟩ := hc.after hm hr ht
  have hk : m₃.kind e = m₂.kind e := by rw [kind, he, kind]
  have hannEq : (m₃.expr e).ann = (m.expr e).ann := by rw [he, hc.ann]
  have hin : ∀ a ∈ (m.expr e).ann, m.Contains (.expr e) (.expr a) := fun a ha =>
    .single (List.mem_append_right _ (List.mem_map_of_mem ha))
  refine ⟨ht.ongoing, (hc.alters.mono ?_).trans (ht.alters.mono ?_), fun {d} hd hn => ?_, fun c hmem => ?_⟩
  · rintro x (rfl | ⟨c, hmem, hx⟩)
    · exact ⟨_, List.mem_singleton.mpr rfl, .refl⟩
    · exact ⟨_, List.mem_singleton.mpr rfl, .head (List.mem_append_left _ hmem) hx⟩
  · rintro x ⟨_, hmem, hx⟩
    obtain ⟨a, ha, rfl⟩ := List.mem_map.mp hmem
    exact ⟨_, List.mem_singleton.mpr rfl, (hin a ha).trans hx⟩
  · have hn := hn _ (List.mem_singleton.mpr rfl)
    have heq := hc.kept hd hn
    rw [← heq] at hd
    exact (ht.kept hd (List.forall_mem_map.mpr fun a ha hda => hn (hda.mono (hin a ha)))).trans heq
  · obtain rfl := List.mem_singleton.mp hmem
    refine ⟨.of_uses ?_ ?_ (ht.ongoing.alters.present (hm.tree.present hr)) (.inl .refl) ?_, ?_, ?_⟩
    · rwa [Settled, hk]
    · rwa [annOf, hannEq]
    · rw [uses, partsBy, hk, hannEq]
      intro c hmem
      rcases List.mem_append.mp hmem with hmem | hmem
      · obtain ⟨o, ho, hd⟩ := hparts c hmem
        exact ⟨o, .single (List.mem_append_left _ (ExprKind.parts_subset _ ho)), hd⟩
      · exact ⟨c, .single (List.mem_append_right _ hmem), (ht.done c hmem).toDone.mono (Nat.le_succ n)⟩
    · rintro _ ⟨⟩
      rw [ty, he, kind, he]
      exact hc.typed
    · rintro _ ⟨⟩

end Annotations

end Model
end Parvar
