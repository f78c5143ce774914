import Parvar.Proofs.Typing.Idempotent
import Parvar.Proofs.Typing.Marks

/-!
Which expressions contain a variable. An expression all of whose nodes stand at one place is typed from below, and from
the time that a node has been typed nothing in it changes any more. So the marks that have come up to it stay there.
-/

namespace Parvar

open Model Typing

namespace Model

section Definitions

variable (m : Model)

-- `b` is `a`, or stands in it where it is to mark it.
def Within (a b : Site) : Prop := Relation.ReflTransGen (fun s c => c ∈ m.inner s) a b

-- `x` is the expression, or stands in it but not in its annotations.
def Bare (e : ExprId) (x : Site) : Prop := x = .expr e ∨ ∃ s ∈ (m.kind e).parts Generator.parts, m.Contains s x

-- Coercions are those of the library, and the nodes stand at one place, in no head of a function.
structure Standing (root : Site) : Prop where
  promotes : m.Promotes
  tree : m.Tree root
  apart : ∀ {f}, m.Registered f → ¬m.Contains root (.typeInst (m.func f).ret) ∧
    ∀ p ∈ (m.func f).params, ¬m.Contains root (.decl p) ∧ ¬m.Contains root (.typeInst (m.decl p).ti)

-- In `m₁` every node in `s` is marked by what stands in it. These nodes are new, or `O` holds of them.
structure Sealed (O : Site → Prop) (s : Site) (m₁ : Model) : Prop where
  reach : ∀ {x}, m₁.Within s x → m₁.Present x ∧ (O x ∨ ¬m.Present x)
  marks : ∀ {x}, m₁.Within s x → m₁.Marks x

-- From `m₁` to `m₂` only what is in the nodes `as` has changed, and `cs` have been sealed.
structure Seals (as cs : List Site) (m₁ m₂ : Model) : Prop where
  alters : m₁.Alters (fun x => ∃ a ∈ as, m.Contains a x) m₂
  all : ∀ c ∈ cs, m.Sealed (m.Contains c) c m₂

-- Each node below the root that `visit` types is sealed by it.
def Sealing (root : Site) (visit : Visit) : Prop := ∀ {s} {c c' : Checking}, m.Contains root s →
  m.Alters (m.Contains root) c.model → m.Fresh s c.model → visit s c = .ok ⟨⟩ c' → m.Seals [s] [s] c.model c'.model

end Definitions

variable {m m₁ m₂ m₃ : Model} {root p s : Site} {O O' P : Site → Prop} {as as' cs cs' : List Site}

section Sealing

theorem Sealed.mono (h : m.Sealed O s m₁) (hO : ∀ x, O x → O' x) : m.Sealed O' s m₁ :=
  ⟨fun hx => (h.reach hx).imp_right (Or.imp_left (hO _)), h.marks⟩

-- What has been sealed stays so while other nodes change.
theorem Sealed.alters (h : m.Sealed O s m₁) (ha : m₁.Alters P m₂) (hP : ∀ {x}, P x → m.Present x ∧ ¬O x) :
    m.Sealed O s m₂ := by
  have hsame : ∀ {x}, m₁.Within s x → m₁.SameAt m₂ x := fun hx =>
    ha.same (h.reach hx).1 fun hp => (h.reach hx).2.elim (hP hp).2 (not_not_intro (hP hp).1)
  have hback : ∀ {x}, m₂.Within s x → m₁.Within s x := by
    intro x hx
    induction hx with
    | refl => exact .refl
    | tail _ hc ih =>
      rw [(hsame ih).inner_eq] at hc
      exact ih.tail hc
  constructor
  · intro x hx
    exact (h.reach (hback hx)).imp_left ha.present
  · intro x hx
    have hx := hback hx
    exact (hsame hx).marks (fun c hc => hsame (hx.tail hc)) (h.marks hx)

theorem Sealed.of_inner (hp : m₁.Present s) (ho : O s ∨ ¬m.Present s) (hs : m₁.Marks s)
    (hc : ∀ c ∈ m₁.inner s, m.Sealed O c m₁) : m.Sealed O s m₁ := by
  constructor
  all_goals
    intro x hx
    rcases Relation.ReflTransGen.cases_head hx with rfl | ⟨c, hmem, hx⟩
  · exact ⟨hp, ho⟩
  · exact (hc c hmem).reach hx
  · exact hs
  · exact (hc c hmem).marks hx

theorem Sealed.of_leaf (hp : m₁.Present s) (ho : O s ∨ ¬m.Present s) (hs : m₁.inner s = []) : m.Sealed O s m₁ := by
  refine .of_inner hp ho ?_ ?_
  · rw [Marks, hs]
    exact fun c hc => by cases hc
  · rw [hs]
    exact fun c hc => by cases hc

theorem Sealed.surrounds {c : Site} {a : ExprId} (h : m.Sealed O (.expr a) m₁) (hc : m₁.Surrounds c a)
    (hn : ¬m.Present c) : m.Sealed O c m₁ := by
  refine .of_inner hc.present (.inr hn) hc.marks fun d hd => ?_
  rw [hc.inner] at hd
  exact List.mem_singleton.mp hd ▸ h

theorem Sealed.within {x : Site} (h : m.Sealed O s m₁) (hx : m₁.Within s x) : m.Sealed O x m₁ :=
  ⟨fun hy => h.reach (hx.trans hy), fun hy => h.marks (hx.trans hy)⟩

-- Marks come up from everywhere inside.
theorem Sealed.marked {x : Site} (h : m.Sealed O s m₁) (hx : m₁.Within s x) (hm : m₁.marked x) : m₁.marked s := by
  induction hx using Relation.ReflTransGen.head_induction_on with
  | refl => exact hm
  | head hc _ ih => exact h.marks .refl _ hc (ih (h.within (.single hc)))

theorem Seals.append (h₁ : m.Seals as cs m₁ m₂) (h₂ : m.Seals as' cs' m₂ m₃)
    (hp : ∀ a ∈ as', ∀ {x}, m.Contains a x → m.Present x) (hsep : ∀ c ∈ cs, ∀ a ∈ as', m.Separate c a) :
    m.Seals (as ++ as') (cs ++ cs') m₁ m₃ where
  alters := by
    refine (h₁.alters.mono ?_).trans (h₂.alters.mono ?_)
    · rintro x ⟨a, ha, hx⟩
      exact ⟨a, List.mem_append_left _ ha, hx⟩
    · rintro x ⟨a, ha, hx⟩
      exact ⟨a, List.mem_append_right _ ha, hx⟩
  all c hc := by
    rcases List.mem_append.mp hc with hc | hc
    · refine (h₁.all c hc).alters h₂.alters ?_
      rintro x ⟨a, ha, hx⟩
      exact ⟨hp a ha hx, fun hcx => hsep c hc a ha x hcx hx⟩
    · exact h₂.all c hc

theorem Seals.contains (h : m.Seals as cs m₁ m₂) (has : ∀ a ∈ as, m.Contains p a) : m₁.Alters (m.Contains p) m₂ := by
  refine h.alters.mono ?_
  rintro x ⟨a, ha, hx⟩
  exact (has a ha).trans hx

theorem Seals.single (ha : m₁.Alters (m.Contains p) m₂) (hs : m.Sealed (m.Contains p) p m₂) : m.Seals [p] [p] m₁ m₂ :=
  ⟨ha.mono fun _ hx => ⟨p, List.mem_cons_self, hx⟩, List.forall_mem_singleton.mpr hs⟩

end Sealing

section Parts

variable {visit : Visit} {c c' : Checking}

variable (hm : m.Standing root) (hp : m.Contains root p)

include hm

theorem Standing.heads (ho : m.Alters (m.Contains root) m₁) : m₁.Promotes := (ho.heads hm.apart).promotes hm.promotes

include hp

-- Some parts of a node are typed after others, when they are still as they were.
theorem Seals.both (has : as ++ as' ⊆ m.parts p) (hdisj : as.Disjoint as') (hcs : cs ⊆ as)
    (ho : m.Alters (m.Contains root) m₁) (hfresh : ∀ a ∈ as', m.Fresh a m₁) (h₁ : m.Seals as cs m₁ m₂)
    (h₂ : m.Alters (m.Contains root) m₂ → (∀ a ∈ as', m.Fresh a m₂) → m.Seals as' cs' m₂ m₃) :
    m.Seals (as ++ as') (cs ++ cs') m₁ m₃ := by
  have hin : ∀ b ∈ as', b ∈ m.parts p := fun b hb => has (List.mem_append_right _ hb)
  have hsep : ∀ a ∈ as, ∀ b ∈ as', m.Separate a b := fun a ha b hb =>
    hm.tree.separate hp (has (List.mem_append_left _ ha)) (hin b hb) fun heq => hdisj ha (heq ▸ hb)
  have hpres : ∀ b ∈ as', ∀ {x}, m.Contains b x → m.Present x := fun b hb {x} hx =>
    hm.tree.present ((hp.part (hin b hb)).trans hx)
  refine h₁.append (h₂ ?_ fun b hb => ?_) hpres fun a ha => hsep a (hcs ha)
  · exact ho.trans (h₁.contains fun a ha => hp.part (has (List.mem_append_left _ ha)))
  · refine (hfresh b hb).alters hm.tree (hp.part (hin b hb)) ho h₁.alters ?_
    rintro x hx ⟨a, ha, hax⟩
    exact hsep a ha b hb x hax hx

theorem Seals.each {α : Type} {xs : List α} {f : α → CheckM PUnit} (as cs : α → List Site)
    (hf : ∀ x ∈ xs, ∀ {c c'}, m.Alters (m.Contains root) c.model → (∀ a ∈ as x, m.Fresh a c.model) →
      f x c = .ok ⟨⟩ c' → m.Seals (as x) (cs x) c.model c'.model)
    (hcs : ∀ x ∈ xs, cs x ⊆ as x) (has : xs.flatMap as ⊆ m.parts p) (hn : (xs.flatMap as).Nodup)
    (ho : m.Alters (m.Contains root) c.model) (hfresh : ∀ a ∈ xs.flatMap as, m.Fresh a c.model)
    (h : xs.forM f c = .ok ⟨⟩ c') : m.Seals (xs.flatMap as) (xs.flatMap cs) c.model c'.model := by
  induction xs generalizing c with
  | nil =>
    cases h
    exact ⟨.refl _ _, fun _ h => by cases h⟩
  | cons x xs ih =>
    obtain ⟨hfx, hf⟩ := List.forall_mem_cons.mp hf
    obtain ⟨hcx, hcs⟩ := List.forall_mem_cons.mp hcs
    rw [List.flatMap_cons] at has hn hfresh ⊢
    rw [List.flatMap_cons]
    obtain ⟨hfreshx, hfresh⟩ := List.forall_mem_append.mp hfresh
    obtain ⟨-, hn, hdisj⟩ := List.nodup_append'.mp hn
    obtain ⟨⟨⟩, c₁, h₁, h⟩ := bind_eq_ok.mp h
    exact .both hm hp has hdisj hcx ho hfresh (hfx ho hfreshx h₁) fun ho hfresh =>
      ih hf hcs (List.append_subset.mp has).2 hn ho hfresh h

variable (hv : m.Sealing root visit) (ho : m.Alters (m.Contains root) c.model)

include hv ho

theorem Sealing.sites (has : as ⊆ m.parts p) (hn : as.Nodup) (hfresh : ∀ a ∈ as, m.Fresh a c.model)
    (h : as.forM visit c = .ok ⟨⟩ c') : m.Seals as as c.model c'.model := by
  have hflat : as.flatMap (fun a => [a]) = as := List.flatMap_singleton' as
  have hs := Seals.each hm hp (fun a => [a]) (fun a => [a])
    (fun a ha {_ _} ho hf h => hv (hp.part (has ha)) ho (hf a List.mem_cons_self) h) (fun _ _ => List.Subset.refl _)
    (by rwa [hflat]) (by rwa [hflat]) ho (by rwa [hflat]) h
  rwa [hflat] at hs

theorem Sealing.annotations {es : List ExprId} (has : es.map .expr ⊆ m.parts p) (hn : (es.map Site.expr).Nodup)
    (hfresh : ∀ a ∈ es.map .expr, m.Fresh a c.model) (h : annotations visit es c = .ok ⟨⟩ c') :
    m.Seals (es.map .expr) (es.map .expr) c.model c'.model := by
  have hflat : es.flatMap (fun a => [Site.expr a]) = es.map .expr := List.flatMap_pure_eq_map _ es
  have hs := Seals.each hm hp (fun a => [.expr a]) (fun a => [.expr a]) (fun a ha {c c'} ho hf h => ?_)
    (fun _ _ => List.Subset.refl _) (by rwa [hflat]) (by rwa [hflat]) ho (by rwa [hflat]) h
  · rwa [hflat] at hs
  · obtain ⟨⟨⟩, c₁, h₁, h⟩ := bind_eq_ok.mp h
    rw [checkM_operand_bind] at h
    split at h
    · cases h
    · cases h
      exact hv (hp.part (has (List.mem_map_of_mem ha))) ho (hf _ List.mem_cons_self) h₁

-- The names of a generator take types after its source has been sealed.
theorem Sealing.generator {g : Generator} (hg : g.parts ⊆ m.parts p)
    (hfresh : ∀ a ∈ g.parts, m.Fresh a c.model) (h : generator visit g c = .ok ⟨⟩ c') :
    m.Seals g.parts g.uses c.model c'.model := by
  obtain ⟨hsource, hdecls⟩ := List.forall_mem_cons.mp hfresh
  rw [generator_eq] at h
  obtain ⟨⟨⟩, ⟨m₁, errors⟩, h₁, h⟩ := bind_eq_ok.mp h
  rw [checkM_operand_bind] at h
  obtain ⟨t, _, hx, h⟩ := bind_eq_ok.mp h
  obtain ⟨-, rfl⟩ := ofExcept_eq_ok.mp hx
  have hs₁ := hv (hp.part (hg List.mem_cons_self)) ho hsource h₁
  change m.Seals ([.expr g.source] ++ g.decls.map .decl) ([.expr g.source] ++ []) c.model c'.model
  refine .both hm hp hg (by simp) (List.Subset.refl _) ho hdecls hs₁ fun _ hfresh => ⟨?_, by simp⟩
  refine (names_setNames h).alters.mono ?_
  rintro x ⟨d, hd, hx⟩
  have hmem : .decl d ∈ g.decls.map Site.decl := List.mem_map_of_mem hd
  have hsame : m₁.decl d = m.decl d := hfresh _ hmem _ .refl
  refine ⟨.decl d, hmem, ?_⟩
  rcases hx with rfl | rfl
  · exact .refl
  · rw [hsame]
    exact .single List.mem_cons_self

end Parts

section Nodes

variable {visit : Visit} {c c' : Checking} {e : ExprId}

theorem parts_sublist (k : ExprKind) : (k.parts Generator.uses).Sublist (k.parts Generator.parts) := by
  cases k
  case comp c =>
    refine (List.Sublist.append_right ?_ _).append_right _
    induction c.generators with
    | nil => exact .refl _
    | cons g gs ih => exact (List.Sublist.cons_cons _ (List.nil_sublist _)).append ih
  all_goals exact .refl _

theorem Bare.contains {x : Site} (h : m.Bare e x) : m.Contains (.expr e) x := by
  rcases h with rfl | ⟨s, hs, hx⟩
  · exact .refl
  · exact .head (List.mem_append_left _ hs) hx

variable (hm : m.Standing root) (hr : m.Contains root (.expr e))

include hm hr

-- What is in an annotation is nowhere else in the expression.
theorem Standing.not_bare {x : Site} (ha : s ∈ (m.expr e).ann.map .expr) (hx : m.Contains s x) : ¬m.Bare e x := by
  have hin : s ∈ m.parts (.expr e) := List.mem_append_right _ ha
  rintro (rfl | ⟨b, hb, hbx⟩)
  · exact hm.tree.not_contains_of_mem hr hin hx
  · obtain ⟨-, -, hdisj⟩ := List.nodup_append'.mp (hm.tree.once hr)
    exact hm.tree.separate hr (List.mem_append_left _ hb) hin (fun heq => hdisj hb (heq ▸ ha)) x hbx hx

theorem Sealing.gather (hv : m.Sealing root visit) (ho : m.Alters (m.Contains root) c.model)
    (hf : m.Fresh (.expr e) c.model) (h : gather visit (m.kind e) c = .ok ⟨⟩ c') :
    m.Seals ((m.kind e).parts Generator.parts) ((m.kind e).parts Generator.uses) c.model c'.model := by
  have hin : (m.kind e).parts Generator.parts ⊆ m.parts (.expr e) := List.subset_append_left _ _
  obtain ⟨hn, -⟩ := List.nodup_append'.mp (hm.tree.once hr)
  have hfresh : ∀ a ∈ (m.kind e).parts Generator.parts, m.Fresh a c.model := fun a ha => hf.part (hin ha)
  generalize m.kind e = k at h hin hn hfresh
  cases k
  case comp k =>
    obtain ⟨⟨⟩, c₁, h₁, h₂⟩ := bind_eq_ok.mp h
    rw [ExprKind.parts, List.append_assoc] at hin hn hfresh ⊢
    rw [ExprKind.parts, List.append_assoc]
    obtain ⟨hn₁, hn₂, hdisj⟩ := List.nodup_append'.mp hn
    obtain ⟨hin₁, hin₂⟩ := List.append_subset.mp hin
    obtain ⟨hfresh₁, hfresh₂⟩ := List.forall_mem_append.mp hfresh
    have hcs : k.generators.flatMap Generator.uses ⊆ k.generators.flatMap Generator.parts := fun a ha => by
      obtain ⟨g, hg, ha⟩ := List.mem_flatMap.mp ha
      exact List.mem_flatMap.mpr ⟨g, hg, g.uses_subset ha⟩
    have hs₁ := Seals.each hm hr Generator.parts Generator.uses (fun g hg {_ _} ho hf h => Sealing.generator hm hr hv ho
      (fun a ha => hin₁ (List.mem_flatMap.mpr ⟨g, hg, ha⟩)) hf h) (fun g _ => g.uses_subset) hin₁ hn₁ ho hfresh₁ h₁
    exact .both hm hr hin hdisj hcs ho hfresh₂ hs₁ fun ho hfresh => hv.sites hm hr ho hin₂ hn₂ hfresh h₂
  all_goals exact hv.sites hm hr ho hin hn hfresh h

section Closing

variable (hg : m.Seals ((m.kind e).parts Generator.parts) ((m.kind e).parts Generator.uses) m₁ m₂)
  (ho : m.Alters (m.Contains root) m₁) (hf : m.Fresh (.expr e) m₁)

include hg ho hf

-- The parts of an expression are sealed while it is as it was itself.
theorem Standing.gathered : m₂.expr e = m.expr e ∧ m₂.Gathered e := by
  have hne : ∀ {s}, s ∈ (m.kind e).parts Generator.parts → ¬m.Contains s (.expr e) := fun hs =>
    hm.tree.not_contains_of_mem hr (List.mem_append_left _ hs)
  have ho₂ := ho.trans (hg.contains fun a ha => hr.part (List.mem_append_left _ ha))
  have hexpr : m₂.expr e = m.expr e := by
    refine (hg.alters.expr_eq (ho.present (hm.tree.present hr)) ?_).trans (hf _ .refl)
    rintro ⟨a, ha, hae⟩
    exact hne ha hae
  have hin : m₂.inner (.expr e) = (m.kind e).parts Generator.uses := by rw [inner, kind, hexpr, kind]
  refine ⟨hexpr, hm.heads ho₂, ho₂.present (hm.tree.present hr), fun {s} hs => ?_, ?_⟩
  · rw [hin] at hs
    refine ⟨((hg.all s hs).reach .refl).1, ?_⟩
    rintro rfl
    exact hne (ExprKind.parts_subset _ hs) .refl
  · rw [hin]
    exact (List.nodup_append'.mp (hm.tree.once hr)).1.sublist (parts_sublist _)

variable (hc : m₂.Closes e m₃)

include hc

theorem Standing.alters : m₁.Alters (m.Bare e) m₃ := by
  obtain ⟨hexpr, -⟩ := hm.gathered hr hg ho hf
  refine (hg.alters.mono fun x hx => .inr hx).trans (hc.alters.mono ?_)
  rintro x (rfl | ⟨a, rfl, ha, -⟩)
  · exact .inl rfl
  · rw [inner, kind, hexpr] at ha
    exact .inr ⟨_, ExprKind.parts_subset _ ha, .refl⟩

-- Once the expression is typed itself, it is sealed.
theorem Standing.closed : m.Sealed (m.Bare e) (.expr e) m₃ := by
  obtain ⟨hexpr, hgathered⟩ := hm.gathered hr hg ho hf
  have ho₂ := ho.trans (hg.contains fun a ha => hr.part (List.mem_append_left _ ha))
  have hin : m₂.inner (.expr e) = (m.kind e).parts Generator.uses := by rw [inner, kind, hexpr, kind]
  have hpart : ∀ {s}, s ∈ (m.kind e).parts Generator.uses → s ∈ m.parts (.expr e) := fun hs =>
    List.mem_append_left _ (ExprKind.parts_subset _ hs)
  have hold : ∀ s ∈ m₂.inner (.expr e), m.Sealed (m.Contains s) s m₃ := by
    intro s hs
    have hs' := hin ▸ hs
    by_cases hanon : ∃ a, s = .expr a ∧ (m₂.kind a).isAnon
    · obtain ⟨a, rfl, hanon⟩ := hanon
      exact .of_leaf (hc.alters.present (hgathered.part hs).1) (.inl .refl) (inner_of_isAnon (hc.anon a hs hanon))
    · refine (hg.all s hs').alters hc.alters ?_
      rintro x (rfl | ⟨a, rfl, ha, hanon'⟩)
      · exact ⟨hm.tree.present hr, hm.tree.not_contains_of_mem hr (hpart hs')⟩
      · rw [hin] at ha
        refine ⟨hm.tree.present (hr.part (hpart ha)), fun hx => ?_⟩
        refine hm.tree.separate hr (hpart hs') (hpart ha) ?_ _ hx .refl
        rintro rfl
        exact hanon ⟨a, rfl, hanon'⟩
  refine .of_inner (hc.alters.present hgathered.present) (.inl (.inl rfl)) hc.marks fun s hs => ?_
  rcases hc.parts s hs with hs | ⟨hnew, a, ha, henc⟩
  · exact (hold s hs).mono fun x hx => .inr ⟨s, ExprKind.parts_subset _ (hin ▸ hs), hx⟩
  · have hnew : ¬m.Present s := fun hs => hnew (ho₂.present hs)
    exact ((hold _ ha).surrounds henc hnew).mono fun x hx => .inr ⟨_, ExprKind.parts_subset _ (hin ▸ ha), hx⟩

end Closing

theorem Sealing.expr (hv : m.Sealing root visit) (ho : m.Alters (m.Contains root) c.model)
    (hf : m.Fresh (.expr e) c.model) (h : Typing.expr visit e c = .ok ⟨⟩ c') :
    m.Seals [.expr e] [.expr e] c.model c'.model := by
  have hk : c.model.kind e = m.kind e := by rw [kind, show c.model.expr e = m.expr e from hf _ .refl, kind]
  rw [Typing.expr, checkM_model_bind, hk, node_eq] at h
  obtain ⟨⟨⟩, c₂, hnode, h⟩ := bind_eq_ok.mp h
  obtain ⟨⟨⟩, ⟨m₁, errors⟩, hparts, hfinish⟩ := bind_eq_ok.mp hnode
  have hg := hv.gather hm hr ho hf hparts
  obtain ⟨hexpr, hgathered⟩ := hm.gathered hr hg ho hf
  have hc := closes_finish hgathered (by rw [kind, hexpr, kind]) hfinish
  have halters := hm.alters hr hg ho hf hc
  -- The annotations come last, and are as they were until then.
  rw [checkM_model_bind, hc.ann, hexpr] at h
  have hin : (m.expr e).ann.map .expr ⊆ m.parts (.expr e) := List.subset_append_right _ _
  have hs := Sealing.annotations hm hr hv (ho.trans (halters.mono fun x hx => hr.trans hx.contains)) hin
    (List.nodup_append'.mp (hm.tree.once hr)).2.1
    (fun a ha => (hf.part (hin ha)).alters hm.tree (hr.part (hin ha)) ho halters (hm.not_bare hr ha)) h
  refine .single ((halters.mono fun x => Bare.contains).trans (hs.contains fun a ha => .single (hin ha))) ?_
  refine ((hm.closed hr hg ho hf hc).alters hs.alters ?_).mono fun x => Bare.contains
  rintro x ⟨a, ha, hx⟩
  exact ⟨hm.tree.present ((hr.part (hin ha)).trans hx), hm.not_bare hr ha hx⟩

end Nodes

section Declarations

variable {errors : Array TypeError} {visit : Visit} {c c' : Checking} {d : DeclId} {i : TypeInstId} {a e : ExprId}
  {t u declared : Ty}

theorem alters_setTy (he : e.index < m.exprs.size) : m.Alters (· = .expr e) (m.setTy e t) := by
  rw [← setNode_kind]
  exact (Alters.refl _ m).setNode he rfl (.inl rfl)

theorem alters_typeIn {span : Span} {domain : Option ExprId} (hd : ∀ a ∈ domain, a.index < m.exprs.size)
    (h : typeIn t span domain { model := m, errors } = .ok u c') :
    m.Alters (fun x => ∃ a ∈ domain, x = .expr a) c'.model := by
  cases domain with
  | none =>
    rw [typeIn] at h
    split at h
    · cases h
    · cases h
      exact .refl _ _
  | some a =>
    rw [typeIn, checkM_model_bind] at h
    obtain ⟨v, _, hx, h⟩ := bind_eq_ok.mp h
    obtain ⟨-, rfl⟩ := ofExcept_eq_ok.mp hx
    split at h
    · obtain ⟨b, _, hx, h⟩ := bind_eq_ok.mp h
      obtain ⟨-, rfl⟩ := ofExcept_eq_ok.mp hx
      cases h
      exact (alters_setTy (hd a rfl)).mono fun x hx => ⟨a, rfl, hx⟩
    · cases h
      exact .refl _ _

-- Only the type itself changes, and that of its domain.
theorem alters_finishTypeInst {x : TypeInst} (hd : ∀ a ∈ x.domain, a.index < m.exprs.size)
    (h : finishTypeInst i x { model := m, errors } = .ok ⟨⟩ c') :
    m.Alters (fun s => s = .typeInst i ∨ ∃ a ∈ x.domain, s = .expr a) c'.model := by
  rw [finishTypeInst, checkM_model_bind] at h
  obtain ⟨t, _, hx, h⟩ := bind_eq_ok.mp h
  obtain ⟨-, rfl⟩ := ofExcept_eq_ok.mp hx
  obtain ⟨u, c₁, hin, h⟩ := bind_eq_ok.mp h
  obtain ⟨⟨⟩, _, hx, h⟩ := bind_eq_ok.mp h
  obtain ⟨-, rfl⟩ := ofExcept_eq_ok.mp hx
  cases h
  exact ((alters_typeIn hd hin).mono fun s hs => .inr hs).trans ((alters_modifyTypeInst _).mono fun s hs => .inl hs)

theorem Sealing.typeInst (hv : m.Sealing root visit) (hm : m.Standing root) (hr : m.Contains root (.typeInst i))
    (ho : m.Alters (m.Contains root) c.model) (hf : m.Fresh (.typeInst i) c.model)
    (h : Typing.typeInst visit i c = .ok ⟨⟩ c') : m.Seals [.typeInst i] [.typeInst i] c.model c'.model := by
  have hx : c.model.typeInst i = m.typeInst i := hf _ .refl
  rw [typeInst_eq, checkM_model_bind, (hf _ .refl).parts_eq, hx] at h
  obtain ⟨⟨⟩, ⟨m₁, errors⟩, h₁, h⟩ := bind_eq_ok.mp h
  have hs := Sealing.sites hm hr hv ho (fun _ h => h) (hm.tree.once hr) (fun a ha => hf.part ha) h₁
  have hdomain : ∀ a ∈ (m.typeInst i).domain, .expr a ∈ m.parts (.typeInst i) := fun a ha =>
    List.mem_append_right _ (List.mem_map_of_mem (Option.mem_toList.mpr ha))
  have ho₁ := ho.trans (hs.contains fun a ha => hr.part ha)
  have ha := alters_finishTypeInst (fun a ha => ho₁.present (hm.tree.present (hr.part (hdomain a ha)))) h
  have hsealed : m.Sealed (m.Contains (.typeInst i)) (.typeInst i) c'.model :=
    .of_leaf (ha.present (ho₁.present (hm.tree.present hr))) (.inl .refl) rfl
  refine .single ((hs.contains fun a ha => .single ha).trans (ha.mono ?_)) hsealed
  rintro x (rfl | ⟨a, ha, rfl⟩)
  · exact .refl
  · exact .single (hdomain a ha)

-- From `m` to `m'` a declaration was typed, and its initializer is the old one or a call around it.
structure Starts (m : Model) (d : DeclId) (m' : Model) : Prop where
  alters : m.Alters (· = .decl d) m'
  init : ∀ b ∈ (m'.decl d).init, b ∈ (m.decl d).init ∨
    ¬m.Present (.expr b) ∧ ∃ a ∈ (m.decl d).init, m'.Surrounds (.expr b) a

theorem starts_setDeclTy : m.Starts d (m.setDeclTy d t) where
  alters := alters_modifyDecl _
  init b hb := by
    rw [setDeclTy, decl_modifyDecl] at hb
    split at hb <;> exact .inl hb

theorem starts_initial (hp : m.Promotes) (hi : a ∈ (m.decl d).init) (ha : a.index < m.exprs.size)
    (h : initial d declared a { model := m, errors } = .ok ⟨⟩ c') : m.Starts d c'.model := by
  rw [initial, checkM_operand_bind] at h
  split at h
  · next hsub =>
    obtain ⟨b, _, hx, h⟩ := bind_eq_ok.mp h
    obtain ⟨m₁, hc, rfl⟩ := coerce_eq_ok hx
    cases h
    obtain ⟨hwraps, hturned⟩ := coerce_wraps hp (Ty.listable_of_sub hsub) hc
    have hr := Reworks.of_wraps hwraps fun x (hx : x = a) => hx ▸ ha
    have hsame : m₁.decl d = m.decl d := (hwraps.alters (P := fun _ => False)).decl_eq id
    refine ⟨hwraps.alters.trans (alters_modifyDecl _), fun b' hb => ?_⟩
    dsimp only at hb
    rw [setInit, decl_modifyDecl] at hb
    split at hb
    · cases hb
      rcases hturned.place with rfl | ⟨hold, hnew⟩
      · exact .inl hi
      · obtain ⟨_, rfl, henc⟩ := hr.added hold hnew
        exact .inr ⟨Nat.not_lt.mpr hold, _, hi, henc.of_same rfl rfl hnew⟩
    · rw [hsame] at hb
      exact .inl hb
  · rw [checkM_model_bind] at h
    cases h
    exact ⟨.refl _ _, fun b hb => .inl hb⟩

-- What a pass does with a declaration after all that is in it.
def settleDecl : Pass → DeclId → Decl → CheckM Unit
  | .declare, d, x => do
    let m ← CheckM.model
    CheckM.changeModel (·.setDeclTy d (m.typeInst x.ti).ty)
  | .check, d, x => finishDecl d x

theorem decl_eq_settle (pass : Pass) (d : DeclId) : Typing.decl pass visit d = (do
    let m ← CheckM.model
    (m.needs d).forM visit
    annotations visit (m.decl d).ann
    settleDecl pass d (m.decl d)) := by
  cases pass with
  | check => exact decl_eq d
  | declare =>
    simp only [Typing.decl, needs, exprs_eq, settleDecl, List.forM_eq_forM (α := Site), List.forM_cons, bind_assoc]

theorem starts_settle {pass : Pass} (hp : ∀ {m'}, m.Alters (· = .decl d) m' → m'.Promotes)
    (hi : ∀ a ∈ (m.decl d).init, a.index < m.exprs.size) (hd : m.Present (.decl d))
    (h : settleDecl pass d (m.decl d) { model := m, errors } = .ok ⟨⟩ c') : m.Starts d c'.model := by
  cases pass with
  | declare =>
    cases h
    exact starts_setDeclTy
  | check =>
    rw [settleDecl, finishDecl_eq] at h
    generalize (m.typeInst (m.decl d).ti).ty = declared at h
    have hinit : ((m.closed d declared).decl d).init = (m.decl d).init := by rw [decl_closed hd]
    cases hinit' : (m.decl d).init with
    | none =>
      rw [hinit'] at h
      cases h
      exact ⟨alters_closed, fun b hb => .inl (hinit ▸ hb)⟩
    | some a =>
      rw [hinit'] at h
      obtain ⟨⟨⟩, c₁, h, hend⟩ := bind_eq_ok.mp h
      cases hend
      have ha : m.Alters (· = .decl d) (m.closed d declared) := alters_closed
      have hs := starts_initial (hp ha) (hinit ▸ hinit') (ha.present (s := .expr a) (hi a hinit')) h
      refine ⟨ha.trans hs.alters, fun b hb => ?_⟩
      have hb := hs.init b hb
      rw [hinit] at hb
      exact hb.imp_right (And.imp_left fun hn hb => hn (ha.present hb))

theorem Sealing.decl {pass : Pass} (hv : m.Sealing root visit) (hm : m.Standing root) (hr : m.Contains root (.decl d))
    (ho : m.Alters (m.Contains root) c.model) (hf : m.Fresh (.decl d) c.model)
    (h : Typing.decl pass visit d c = .ok ⟨⟩ c') : m.Seals [.decl d] [.decl d] c.model c'.model := by
  have hx : c.model.decl d = m.decl d := hf _ .refl
  have hneeds : c.model.needs d = m.needs d := by rw [needs, hx, needs]
  rw [decl_eq_settle, checkM_model_bind, hneeds, hx] at h
  obtain ⟨⟨⟩, c₁, h₁, h⟩ := bind_eq_ok.mp h
  obtain ⟨⟨⟩, ⟨m₂, errors⟩, h₂, h⟩ := bind_eq_ok.mp h
  have hs : m.Seals (m.parts (.decl d)) (m.parts (.decl d)) c.model m₂ := by
    have hin : m.needs d ++ (m.decl d).ann.map .expr ⊆ m.parts (.decl d) := fun _ h => h
    obtain ⟨hin₁, hin₂⟩ := List.append_subset.mp hin
    obtain ⟨hn₁, hn₂, hdisj⟩ := List.nodup_append'.mp (hm.tree.once hr)
    have hs₁ := Sealing.sites hm hr hv ho hin₁ hn₁ (fun a ha => hf.part (hin₁ ha)) h₁
    exact .both hm hr hin hdisj (fun _ h => h) ho (fun a ha => hf.part (hin₂ ha)) hs₁ fun ho hfresh =>
      Sealing.annotations hm hr hv ho hin₂ hn₂ hfresh h₂
  have ho₂ := ho.trans (hs.contains fun a ha => hr.part ha)
  have hpres := hm.tree.present hr
  have hsame : m₂.decl d = m.decl d := by
    refine (hs.alters.decl_eq ?_).trans hx
    rintro ⟨a, ha, had⟩
    exact hm.tree.not_contains_of_mem hr ha had
  have hinit : ∀ a ∈ (m₂.decl d).init, .expr a ∈ m.parts (.decl d) := by
    rw [hsame]
    exact fun a ha => List.mem_append_left _ (List.mem_cons_of_mem _ (List.mem_map_of_mem (Option.mem_toList.mpr ha)))
  rw [← hsame] at h
  have hstarts : m₂.Starts d c'.model := by
    refine starts_settle (fun ha => hm.heads (ho₂.trans (ha.mono ?_))) (fun a ha => ?_) (ho₂.present hpres) h
    · rintro x rfl
      exact hr
    · exact ho₂.present (hm.tree.present (hr.part (hinit a ha)))
  have hold : ∀ a ∈ (m₂.decl d).init, m.Sealed (m.Contains (.decl d)) (.expr a) c'.model := by
    intro a ha
    refine ((hs.all _ (hinit a ha)).alters hstarts.alters ?_).mono fun x hx => .head (hinit a ha) hx
    rintro x rfl
    exact ⟨hpres, hm.tree.not_contains_of_mem hr (hinit a ha)⟩
  have hsealed : m.Sealed (m.Contains (.decl d)) (.decl d) c'.model := by
    refine .of_inner (hstarts.alters.present (ho₂.present hpres)) (.inl .refl) (marks_decl _ d) fun s hs => ?_
    rw [inner] at hs
    split at hs
    · obtain ⟨b, hb, rfl⟩ := List.mem_map.mp hs
      rcases hstarts.init b (Option.mem_toList.mp hb) with hb | ⟨hnew, a, ha, henc⟩
      · exact hold b hb
      · exact (hold a ha).surrounds henc fun h => hnew (ho₂.present h)
    · cases hs
  refine .single ((hs.contains fun a ha => .single ha).trans (hstarts.alters.mono ?_)) hsealed
  rintro x rfl
  exact .refl

end Declarations

theorem Standing.sealing_walk {pass : Pass} (hm : m.Standing root) (fuel : Nat) : m.Sealing root (walk pass fuel) := by
  induction fuel with
  | zero => exact fun _ _ _ h => by cases h
  | succ fuel ih =>
    intro s c c' hr ho hf h
    cases s with
    | expr e => exact ih.expr hm hr ho hf h
    | decl d => exact ih.decl hm hr ho hf h
    | typeInst i => exact ih.typeInst hm hr ho hf h

end Model

-- A variable marks all the expressions that it stands in, except where it stands in the initializer of a name that was
-- not declared to contain one.
theorem contained_variables_marked {m : Model} {pass : Pass} {e x y : ExprId} {errors : Array TypeError} {c' : Checking}
    (hm : m.Standing (.expr e)) (h : assignTypes pass (.expr e) { model := m, errors } = .ok ⟨⟩ c')
    (hy : c'.model.Within (.expr e) (.expr y)) (hx : c'.model.Within (.expr y) (.expr x))
    (hvar : (c'.model.ty x).isVar) : (c'.model.ty y).cv := by
  have hs := hm.sealing_walk m.walkFuel .refl (.refl _ _) (fun s _ => by cases s <;> rfl) h
  have hsealed := (hs.all _ List.mem_cons_self).within hy
  exact hsealed.marked hx ((c'.model.ty x).cv_of_var (by simpa [Ty.isVar] using hvar))

section Samples

-- `var int: x` and `function int: size(array[int] of var int: a)`, with other nodes.
def sized (exprs : Array Expr) (d : Decl) (t : Ty) : Model where
  exprs
  decls := #[d, { name := "x", ti := ⟨1⟩, ty := .varInt }, { name := "a", ti := ⟨2⟩, ty := Ty.varInt.withDim 1 }]
  typeInsts := #[{ ty := t }, { ty := .varInt }, { ty := Ty.varInt.withDim 1 }, { ty := .parInt }]
  funcs := #[{ name := "size", params := [⟨2⟩], ret := ⟨3⟩ }]
  overloads := [("size", [⟨0⟩])]

-- `let { var float: y = x } in size([x])`
def declared : Model :=
  sized #[{ kind := .ident "x" (some ⟨1⟩) }, { kind := .ident "x" (some ⟨1⟩) }, { kind := .arrayLit [⟨1⟩] [(1, 1)] },
    { kind := .call "size" [⟨2⟩] none }, { kind := .letIn { items := [.decl ⟨0⟩], body := ⟨3⟩, origin := [] } }]
    { name := "y", ti := ⟨0⟩, init := some ⟨0⟩ } .varFloat

-- `let { int: n = size([x]) } in n`
def forgotten : Model :=
  sized #[{ kind := .ident "x" (some ⟨1⟩) }, { kind := .arrayLit [⟨0⟩] [(1, 1)] }, { kind := .call "size" [⟨1⟩] none },
    { kind := .ident "n" (some ⟨0⟩) }, { kind := .letIn { items := [.decl ⟨0⟩], body := ⟨3⟩, origin := [] } }]
    { name := "n", ti := ⟨0⟩, init := some ⟨2⟩ } .parInt

def sizedSites : List Site :=
  [.expr ⟨4⟩, .expr ⟨3⟩, .expr ⟨2⟩, .expr ⟨1⟩, .expr ⟨0⟩, .decl ⟨0⟩, .typeInst ⟨0⟩]

theorem standing_samples {m : Model} (hm : m ∈ [declared, forgotten]) : m.withCoercions.Standing (.expr ⟨4⟩) := by
  have hc : ∀ s ∈ sizedSites, m.withCoercions.parts s ⊆ sizedSites := by
    revert m
    decide +kernel
  have hmem : ∀ {s}, m.withCoercions.Contains (.expr ⟨4⟩) s → s ∈ sizedSites := fun h =>
    h.mem_of_closed List.mem_cons_self hc
  refine ⟨promotes_withCoercions ?_, .of_nodup sizedSites List.mem_cons_self hc ?_ ?_, apart_of_table ?_ hmem⟩
  all_goals
    clear hc hmem
    revert m
    decide +kernel

-- The whole is fixed, and contains a variable.
theorem contained_variables_marked_let : ∃ m', assignTypes .check (.expr ⟨4⟩) { model := declared.withCoercions } =
    .ok ⟨⟩ { model := m' } ∧ (m'.ty ⟨1⟩).isVar ∧ (m'.ty ⟨4⟩).isVar = false ∧ (m'.ty ⟨4⟩).cv := by
  have hrun : (declared.withCoercions.typed? (.expr ⟨4⟩)).map (fun m =>
      ([Site.expr ⟨4⟩, .expr ⟨3⟩, .expr ⟨2⟩].map m.inner, (m.ty ⟨1⟩).isVar, (m.ty ⟨4⟩).isVar)) =
        some ([[.decl ⟨0⟩, .expr ⟨3⟩], [.expr ⟨2⟩], [.expr ⟨1⟩]], true, false) := by cbv
  obtain ⟨m', hm', hnodes⟩ := Option.map_eq_some_iff.mp hrun
  simp only [List.map_cons, List.map_nil, Prod.mk.injEq, List.cons.injEq, and_true] at hnodes
  obtain ⟨⟨h₄, h₃, h₂⟩, hvar, hpar⟩ := hnodes
  have h := typed_eq_some.mp hm'
  have hx : m'.Within (.expr ⟨4⟩) (.expr ⟨1⟩) := by
    refine .head (b := .expr ⟨3⟩) (by simp [h₄]) (.head (b := .expr ⟨2⟩) (by simp [h₃]) (.single (by simp [h₂])))
  exact ⟨m', h, hvar, hpar, contained_variables_marked (standing_samples (by simp)) h .refl hx hvar⟩

-- What the initializer contains is not known from the declaration.
theorem initializer_unmarked : forgotten.withCoercions.Standing (.expr ⟨4⟩) ∧
    ∃ m', assignTypes .check (.expr ⟨4⟩) { model := forgotten.withCoercions } = .ok ⟨⟩ { model := m' } ∧
      m'.inner (.expr ⟨4⟩) = [.decl ⟨0⟩, .expr ⟨3⟩] ∧ (m'.decl ⟨0⟩).init = some ⟨2⟩ ∧
      m'.Within (.expr ⟨2⟩) (.expr ⟨0⟩) ∧ (m'.ty ⟨0⟩).isVar ∧ (m'.ty ⟨4⟩).cv = false := by
  have hrun : (forgotten.withCoercions.typed? (.expr ⟨4⟩)).map (fun m =>
      ([Site.expr ⟨4⟩, .expr ⟨2⟩, .expr ⟨1⟩].map m.inner, (m.decl ⟨0⟩).init, (m.ty ⟨0⟩).isVar, (m.ty ⟨4⟩).cv)) =
        some ([[.decl ⟨0⟩, .expr ⟨3⟩], [.expr ⟨1⟩], [.expr ⟨0⟩]], some ⟨2⟩, true, false) := by cbv
  obtain ⟨m', hm', hnodes⟩ := Option.map_eq_some_iff.mp hrun
  simp only [List.map_cons, List.map_nil, Prod.mk.injEq, List.cons.injEq, and_true] at hnodes
  obtain ⟨⟨h₄, h₂, h₁⟩, hinit, hvar, hcv⟩ := hnodes
  have hx : m'.Within (.expr ⟨2⟩) (.expr ⟨0⟩) := .head (b := .expr ⟨1⟩) (by simp [h₂]) (.single (by simp [h₁]))
  exact ⟨standing_samples (by simp), m', typed_eq_some.mp hm', h₄, hinit, hx, hvar, hcv⟩

end Samples
end Parvar
