import Parvar.Proofs.Typing.Walking

/-!
Typing of comprehensions. Each generator gives its names the type of what it runs through, before they
are met: its own source and those before it do not see them.
-/

namespace Parvar

open Model Typing

namespace Model

section Changes

variable {m : Model} {d : DeclId} {t u : TypeInstId}

theorem typeInst_modifyTypeInst {f : TypeInst → TypeInst} : (m.modifyTypeInst t f).typeInst u =
    if u = t ∧ t.index < m.typeInsts.size then f (m.typeInst t) else m.typeInst u := by
  simp only [typeInst, modifyTypeInst, Array.getElem?_modify]
  by_cases hut : u = t
  · subst hut
    by_cases hlt : u.index < m.typeInsts.size
    · simp [hlt]
    · simp [hlt]
  · have hne : t.index ≠ u.index := fun h => hut (by cases t; cases u; simp_all)
    simp [hut, hne]

theorem alters_modifyDecl (f : Decl → Decl) : m.Alters (· = .decl d) (m.modifyDecl d f) where
  same {s} _ hs := by
    cases s with
    | expr e => rfl
    | typeInst t => rfl
    | decl c =>
      have hne : c ≠ d := by
        rintro rfl
        exact hs rfl
      exact decl_modifyDecl_ne hne f
  exprs := Nat.le_refl _
  decls := size_modifyDecl f
  typeInsts := rfl
  funcs := rfl
  overloads := rfl
  typeVar _ _ := Iff.rfl

theorem alters_modifyTypeInst (f : TypeInst → TypeInst) : m.Alters (· = .typeInst t) (m.modifyTypeInst t f) where
  same {s} _ hs := by
    cases s with
    | expr e => rfl
    | decl c => rfl
    | typeInst u =>
      refine typeInst_modifyTypeInst.trans (if_neg ?_)
      rintro ⟨rfl, -⟩
      exact hs rfl
  exprs := Nat.le_refl _
  decls := rfl
  typeInsts := by simp [modifyTypeInst]
  funcs := rfl
  overloads := rfl
  typeVar _ _ := Iff.rfl

end Changes

section Names

-- What a generator does after its source has been typed.
def setNames (ds : List DeclId) (t : Ty) : CheckM Unit :=
  ds.forM fun d => do
    CheckM.changeModel (·.setDeclTy d t)
    let ti := ((← CheckM.model).decl d).ti
    CheckM.changeModel (·.setTypeInstTy ti t)

-- From `m` to `m'` some names got the type `t`, and nothing else changed.
structure Names (t : Ty) (ds : List DeclId) (m m' : Model) : Prop where
  alters : m.Alters (fun x => ∃ d ∈ ds, x = .decl d ∨ x = .typeInst (m.decl d).ti) m'
  exprs : m'.exprs = m.exprs
  tis : ∀ d, (m'.decl d).ti = (m.decl d).ti
  decls : ∀ d, (m'.decl d).ty = t ∨ (m'.decl d).ty = (m.decl d).ty
  typeInsts : ∀ u, (m'.typeInst u).ty = t ∨ (m'.typeInst u).ty = (m.typeInst u).ty
  named : ∀ d ∈ ds, m.Present (.decl d) → m.Present (.typeInst (m.decl d).ti) →
    (m'.decl d).ty = t ∧ (m'.typeInst (m.decl d).ti).ty = t

variable {m m' m₁ m₂ : Model} {t : Ty} {d : DeclId} {ds : List DeclId}

theorem names_nil : Names t [] m m where
  alters := .refl _ _
  exprs := rfl
  tis _ := rfl
  decls _ := .inr rfl
  typeInsts _ := .inr rfl
  named _ h := by cases h

theorem names_cons (h : Names t ds ((m.setDeclTy d t).setTypeInstTy (m.decl d).ti t) m') : Names t (d :: ds) m m' := by
  have ha : m.Alters (fun x => x = .decl d ∨ x = .typeInst (m.decl d).ti)
      ((m.setDeclTy d t).setTypeInstTy (m.decl d).ti t) :=
    ((alters_modifyDecl _).mono fun _ => .inl).trans ((alters_modifyTypeInst _).mono fun _ => .inr)
  have hd : ∀ c, ((m.setDeclTy d t).setTypeInstTy (m.decl d).ti t).decl c =
      if c = d ∧ d.index < m.decls.size then { m.decl d with ty := t } else m.decl c := fun c => decl_modifyDecl m d c _
  have hu : ∀ u, ((m.setDeclTy d t).setTypeInstTy (m.decl d).ti t).typeInst u =
      if u = (m.decl d).ti ∧ (m.decl d).ti.index < m.typeInsts.size then { m.typeInst (m.decl d).ti with ty := t }
      else m.typeInst u := fun u => typeInst_modifyTypeInst
  have he : ((m.setDeclTy d t).setTypeInstTy (m.decl d).ti t).exprs = m.exprs := rfl
  generalize (m.setDeclTy d t).setTypeInstTy (m.decl d).ti t = m₁ at h ha hd hu he
  have hti : ∀ c, (m₁.decl c).ti = (m.decl c).ti := by
    intro c
    rw [hd]
    split
    · next h => rw [h.1]
    · rfl
  constructor
  case alters =>
    refine (ha.mono fun x hx => ⟨d, List.mem_cons_self, hx⟩).trans (h.alters.mono ?_)
    rintro x ⟨c, hc, hx⟩
    exact ⟨c, List.mem_cons_of_mem _ hc, hti c ▸ hx⟩
  case exprs => exact h.exprs.trans he
  case tis => exact fun c => (h.tis c).trans (hti c)
  case decls =>
    intro c
    rcases h.decls c with h | h
    · exact .inl h
    · rw [h, hd]
      split
      · exact .inl rfl
      · exact .inr rfl
  case typeInsts =>
    intro u
    rcases h.typeInsts u with h | h
    · exact .inl h
    · rw [h, hu]
      split
      · exact .inl rfl
      · exact .inr rfl
  case named =>
    intro c hc hp hpt
    rcases List.mem_cons.mp hc with rfl | hc
    · have hdecl : (m₁.decl c).ty = t := by rw [hd, if_pos ⟨rfl, hp⟩]
      have hinst : (m₁.typeInst (m.decl c).ti).ty = t := by rw [hu, if_pos ⟨rfl, hpt⟩]
      exact ⟨(h.decls c).elim id (·.trans hdecl), (h.typeInsts _).elim id (·.trans hinst)⟩
    · have h := h.named c hc (ha.present hp) (hti c ▸ ha.present hpt)
      rwa [hti c] at h

theorem names_setNames {errors : Array TypeError} {c : Checking}
    (h : setNames ds t { model := m, errors } = .ok ⟨⟩ c) : Names t ds m c.model := by
  induction ds generalizing m with
  | nil =>
    cases h
    exact names_nil
  | cons d ds ih =>
    have hti : ((m.setDeclTy d t).decl d).ti = (m.decl d).ti := by
      rw [setDeclTy, decl_modifyDecl]
      split <;> rfl
    refine names_cons (ih ?_)
    rw [← hti]
    exact h

variable {visit : Visit} {g : Generator}

theorem generator_eq : generator visit g = (do
    visit (.expr g.source)
    let x ← CheckM.operand g.source
    let t ← CheckM.ofExcept (Rules.generated x)
    setNames g.decls t) := rfl

theorem quiet_names (x : Operand) : Upholds Checking.Reported (do
    let t ← CheckM.ofExcept (Rules.generated x)
    setNames ds t) :=
  .bind (.ofExcept _) fun _ _ => .forM fun _ _ => .seq (.changeModel fun _ h => h) fun _ =>
    .bind .model fun _ _ => .changeModel fun _ h => h

theorem quiet_generator (hv : ∀ s, Upholds Checking.Reported (visit s)) :
    Upholds Checking.Reported (generator visit g) := by
  rw [generator_eq]
  exact .seq (hv _) fun _ => .seq (.operand _) quiet_names

theorem generator_inv (h : Runs (generator visit g) m ⟨⟩ m') : ∃ m₁ t, Runs (visit (.expr g.source)) m ⟨⟩ m₁ ∧
    Rules.generated (m₁.operand g.source) = .ok t ∧ Names t g.decls m₁ m' := by
  rw [generator_eq] at h
  obtain ⟨_, m₁, hvisit, h⟩ := Runs.bind_inv (fun _ => .seq (.operand _) quiet_names) h
  rw [Runs, checkM_operand_bind] at h
  obtain ⟨t, ht, h⟩ := Runs.ofExcept_bind h
  exact ⟨m₁, t, hvisit, ht, names_setNames h⟩

end Names

section Scopes

variable {rest : List Site} {g : Generator} {gs : List Generator} {d : DeclId} {s : Site}

-- A name is not visible in the source of its own generator, nor in one before it.
theorem mem_of_scopes (h : (d, s) ∈ Generator.scopes rest (g :: gs)) : s ∈ gs.flatMap Generator.uses ++ rest := by
  rw [Generator.scopes, List.mem_append, List.pair_mem_product] at h
  exact h.elim And.right mem_scopes

end Scopes

section Generators

variable (m : Model) (root : Site)

-- From `m₁` to `m₂` some generators of a comprehension have been typed.
structure Generates (n : Nat) (gs : List Generator) (m₁ m₂ : Model) : Prop where
  ongoing : m.Ongoing root m₂
  alters : m₁.Alters (fun x => ∃ c ∈ gs.flatMap Generator.parts, m.Contains c x) m₂
  kept : ∀ {d}, (m₁.decl d).ty.Known → (∀ g ∈ gs, d ∉ g.decls ∧ ¬m.RangesIn (.expr g.source) d) →
    (m₂.decl d).ty = (m₁.decl d).ty
  done : ∀ g ∈ gs, m.Visited n (.expr g.source) m₂ ∧ m₂.Ranges g

-- The last generators of a comprehension, and what comes after them. Their names are only visible there.
structure Tail (e : ExprId) (c : Comprehension) (rest : List Site) (gs : List Generator) : Prop where
  parts : ∀ s ∈ gs.flatMap Generator.parts ++ rest, s ∈ m.parts (.expr e)
  once : (gs.flatMap Generator.parts ++ rest).Nodup
  inner : ∀ g ∈ gs, g ∈ c.generators
  scopes : ∀ g ∈ gs, ∀ d ∈ g.decls, ∀ s, (d, s) ∈ (ExprKind.comp c).scopes → (d, s) ∈ Generator.scopes rest gs

variable {m root} {m₁ m₂ : Model} {n : Nat} {e : ExprId} {c : Comprehension} {rest : List Site} {g : Generator}
  {gs : List Generator} {visit : Visit} {t : Ty}

theorem Tail.next (h : m.Tail e c rest (g :: gs)) : m.Tail e c rest gs where
  parts s hs := h.parts s (by simp only [List.flatMap_cons, List.append_assoc]; exact List.mem_append_right _ hs)
  once := by
    have honce := h.once
    rw [List.flatMap_cons, List.append_assoc] at honce
    exact (List.nodup_append'.mp honce).2.1
  inner g' hg := h.inner g' (List.mem_cons_of_mem _ hg)
  scopes g' hg d hd s hs := by
    have honce := h.once
    rw [List.flatMap_cons, List.append_assoc] at honce
    have hs := h.scopes g' (List.mem_cons_of_mem _ hg) d hd s hs
    rw [Generator.scopes, List.mem_append, List.pair_mem_product] at hs
    refine hs.resolve_left fun hs => ?_
    have hmem : .decl d ∈ gs.flatMap Generator.parts ++ rest :=
      List.mem_append_left _ (List.mem_flatMap.mpr ⟨g', hg, List.mem_cons_of_mem _ (List.mem_map_of_mem hd)⟩)
    exact (List.nodup_append'.mp honce).2.2 (List.mem_cons_of_mem _ (List.mem_map_of_mem hs.1)) hmem

-- What is typed after a generator leaves it as it is.
theorem Visited.generated_stays {bs : List Site} (hv : m.Visited n (.expr g.source) m₁) (hm : m.Checkable root)
    (hrange : m₁.Ranges g) (ho₁ : m.Ongoing root m₁) (ho₂ : m.Ongoing root m₂) (hbs : ∀ b ∈ bs, m.Contains root b)
    (hout : ∀ {s}, s ∈ g.parts → ∀ b ∈ bs, m.Separate s b) (ha : m₁.Alters (fun x => ∃ b ∈ bs, m.Contains b x) m₂)
    (hnamed : ∀ {y name d}, m.Contains (.expr g.source) (.expr y) → m.kind y = .ident name (some d) →
      (m₁.decl d).ty.Known → (m₂.decl d).ty = (m₁.decl d).ty) :
    m.Visited n (.expr g.source) m₂ ∧ m₂.Ranges g := by
  have hsource : Site.expr g.source ∈ g.parts := List.mem_cons_self
  have hout : ∀ {s x}, s ∈ g.parts → m.Contains s x → ¬∃ b ∈ bs, m.Contains b x := by
    rintro s x hs hsx ⟨b, hb, hbx⟩
    exact hout hs b hb x hsx hbx
  refine ⟨hv.alters hm ho₁ ho₂ ha ?_ hnamed, hrange.congr ?_ fun d hd => ?_⟩
  · rintro x ⟨b, hb, hx⟩
    exact ⟨hm.tree.present ((hbs b hb).trans hx), fun hsx => hout hsource hsx ⟨b, hb, hx⟩⟩
  · exact ha.expr_eq (hv.reach .refl).1 (hout hsource .refl)
  · have hd : .decl d ∈ g.parts := List.mem_cons_of_mem _ (List.mem_map_of_mem hd)
    refine ⟨ha.decl_eq (hout hd .refl), ha.typeInst_eq (hout hd ?_)⟩
    rw [ho₁.tis]
    exact .single List.mem_cons_self

section Steps

variable (hm : m.Checkable root) (hr : m.Contains root (.expr e)) (hk : m.kind e = .comp c)

include hm hr

theorem Tail.separate {a b : Site} (h : m.Tail e c rest (g :: gs)) (ha : a ∈ g.parts)
    (hb : b ∈ gs.flatMap Generator.parts ++ rest) : m.Separate a b := by
  have honce := h.once
  rw [List.flatMap_cons, List.append_assoc] at honce
  have hmem := h.parts a (List.mem_append_left _ (List.mem_append_left _ ha))
  refine hm.tree.separate hr hmem (h.next.parts b hb) ?_
  rintro rfl
  exact (List.nodup_append'.mp honce).2.2 ha hb

include hk

-- No name of these generators is met in the first source.
theorem Tail.hidden {y : ExprId} {name : String} {d : DeclId} (h : m.Tail e c rest (g :: gs))
    (hy : m.Contains (.expr g.source) (.expr y)) (hident : m.kind y = .ident name (some d)) :
    ∀ g' ∈ g :: gs, d ∉ g'.decls := by
  intro g' hg hd
  have hsource : .expr g.source ∈ m.parts (.expr e) := h.parts _ (List.mem_append_left _ List.mem_cons_self)
  obtain ⟨s, hs, hsy⟩ := hm.lexical ((hr.part hsource).trans hy) hident hr hk (h.inner g' hg) hd
  have hs := mem_of_scopes (h.scopes g' hg d hd s hs)
  have hs : s ∈ gs.flatMap Generator.parts ++ rest := by
    simp only [List.mem_append, List.mem_flatMap] at hs ⊢
    refine hs.imp_left ?_
    rintro ⟨g, hg, hs⟩
    exact ⟨g, hg, g.uses_subset hs⟩
  exact h.separate hm hr List.mem_cons_self hs _ hy hsy

-- A generator is typed by its source, and then its names are.
theorem Tail.generates {m' : Model} (h : m.Tail e c rest (g :: gs)) (hs : m.Types root n [.expr g.source] m₁ m')
    (hgen : Rules.generated (m'.operand g.source) = .ok t) (hnames : Names t g.decls m' m₂) :
    m.Generates root n [g] m₁ m₂ := by
  have hparts : ∀ d ∈ g.decls, .decl d ∈ m.parts (.expr e) := fun d hd =>
    h.parts _ (List.mem_append_left _ (List.mem_append_left _ (List.mem_cons_of_mem _ (List.mem_map_of_mem hd))))
  have hsource : .expr g.source ∈ m.parts (.expr e) := h.parts _ (List.mem_append_left _ List.mem_cons_self)
  have hv := hs.done _ (List.mem_singleton.mpr rfl)
  have ha : m'.Alters (fun x => ∃ d ∈ g.decls, m.Contains (.decl d) x) m₂ := by
    refine hnames.alters.mono ?_
    rintro x ⟨d, hd, rfl | rfl⟩
    · exact ⟨d, hd, .refl⟩
    · refine ⟨d, hd, ?_⟩
      rw [hs.ongoing.tis]
      exact .single List.mem_cons_self
  have hexpr : ∀ x, m₂.expr x = m'.expr x := fun x => by rw [expr, hnames.exprs, expr]
  have hbase : t.base ≠ .bot := by
    rcases Rules.base_generated hgen with h | h
    · exact h ▸ fun h => by cases h
    · exact h ▸ (hv.typed rfl).1.not_bot
  have ho : m.Ongoing root m₂ := by
    refine ⟨hs.ongoing.alters.trans (ha.mono ?_), fun x => ?_, fun d => ?_, fun d => ?_⟩
    · rintro x ⟨d, hd, hx⟩
      exact (hr.part (hparts d hd)).trans hx
    · rw [kind, hexpr]
      exact hs.ongoing.plain x
    · exact (hnames.tis d).trans (hs.ongoing.tis d)
    · rcases hnames.decls d with hd | hd
      · exact hd ▸ hbase
      · exact hd ▸ hs.ongoing.declared d
  refine ⟨ho, (hs.alters.mono ?_).trans (ha.mono ?_), fun {d} hknown hn => ?_, fun g' hg => ?_⟩
  · rintro x ⟨s, hs, hx⟩
    exact ⟨s, by simpa [Generator.parts] using .inl (List.mem_singleton.mp hs), hx⟩
  · rintro x ⟨d, hd, hx⟩
    exact ⟨.decl d, by simpa [Generator.parts] using hd, hx⟩
  · obtain ⟨hd, hrange⟩ := hn g (List.mem_singleton.mpr rfl)
    have hsame : m₂.decl d = m'.decl d := by
      refine hnames.alters.decl_eq ?_
      rintro ⟨d', hd', h | h⟩
      · exact hd (Site.decl.inj h ▸ hd')
      · cases h
    rw [hsame]
    exact hs.kept hknown fun s hs => List.mem_singleton.mp hs ▸ hrange
  · obtain rfl := List.mem_singleton.mp hg
    refine ⟨hv.alters hm hs.ongoing ho ha ?_ ?_, t, ?_, fun d hd => ?_⟩
    · rintro x ⟨d, hd, hx⟩
      refine ⟨hm.tree.present ((hr.part (hparts d hd)).trans hx), fun hsx => ?_⟩
      exact hm.tree.separate hr hsource (hparts d hd) (fun h => by cases h) x hsx hx
    · intro y name d hy hident _
      have hd := h.hidden hm hr hk hy hident g' List.mem_cons_self
      rw [hnames.alters.decl_eq]
      rintro ⟨d', hd', h | h⟩
      · exact hd (Site.decl.inj h ▸ hd')
      · cases h
    · rw [operand, hexpr]
      exact hgen
    · have hp : m.Contains root (.decl d) := hr.part (hparts d hd)
      have hpt : m.Contains root (.typeInst (m.decl d).ti) := hp.part List.mem_cons_self
      rw [hnames.tis]
      refine hnames.named d hd (hs.ongoing.alters.present (hm.tree.present hp)) ?_
      rw [hs.ongoing.tis]
      exact hs.ongoing.alters.present (hm.tree.present hpt)

theorem Tail.generates_cons {m' : Model} (h : m.Tail e c rest (g :: gs)) (hg : m.Generates root n [g] m₁ m')
    (hgs : m.Generates root n gs m' m₂) : m.Generates root n (g :: gs) m₁ m₂ := by
  have hin : ∀ {s}, s ∈ g.parts → m.Contains root s := fun hs =>
    hr.part (h.parts _ (List.mem_append_left _ (List.mem_append_left _ hs)))
  have hout : ∀ {s}, s ∈ g.parts → ∀ b ∈ gs.flatMap Generator.parts, m.Separate s b := fun hs b hb =>
    h.separate hm hr hs (List.mem_append_left _ hb)
  have hin' : ∀ b ∈ gs.flatMap Generator.parts, m.Contains root b := fun b hb =>
    hr.part (h.next.parts b (List.mem_append_left _ hb))
  refine ⟨hgs.ongoing, (hg.alters.mono ?_).trans (hgs.alters.mono ?_), fun {d} hknown hn => ?_, ?_⟩
  · rintro x ⟨s, hs, hx⟩
    exact ⟨s, by simp_all, hx⟩
  · rintro x ⟨s, hs, hx⟩
    exact ⟨s, List.mem_append_right _ hs, hx⟩
  · obtain ⟨hn, hns⟩ := List.forall_mem_cons.mp hn
    have heq := hg.kept hknown fun g' hg => List.mem_singleton.mp hg ▸ hn
    rw [← heq] at hknown
    exact (hgs.kept hknown hns).trans heq
  · have hdone := hg.done g (List.mem_singleton.mpr rfl)
    refine List.forall_mem_cons.mpr ⟨?_, hgs.done⟩
    refine hdone.1.generated_stays hm hdone.2 hg.ongoing hgs.ongoing hin' hout hgs.alters ?_
    intro y name d hy hident hknown
    refine hgs.kept hknown fun g' hg' => ⟨h.hidden hm hr hk hy hident g' (List.mem_cons_of_mem _ hg'), ?_⟩
    have hmem : .expr g'.source ∈ gs.flatMap Generator.parts := List.mem_flatMap.mpr ⟨g', hg', List.mem_cons_self⟩
    have hsource : Site.expr g.source ∈ g.parts := List.mem_cons_self
    exact hm.not_rangesIn ((hin hsource).trans hy) (hin' _ hmem) (hout hsource _ hmem _ hy) hident

theorem Visiting.generators (hv : m.Visiting root n visit) (htail : m.Tail e c rest gs) (ho : m.Ongoing root m₁)
    (hf : ∀ g ∈ gs, m.Fresh (.expr g.source) m₁) (h : Runs (gs.forM (generator visit)) m₁ ⟨⟩ m₂) :
    m.Generates root n gs m₁ m₂ := by
  induction gs generalizing m₁ with
  | nil =>
    cases h
    exact ⟨ho, .refl _ _, fun _ _ => rfl, fun _ h => by cases h⟩
  | cons g gs ih =>
    obtain ⟨_, m₂', h₁, h⟩ := Runs.bind_inv (fun _ => .forM fun _ _ => quiet_generator hv.quiet) h
    obtain ⟨m', t, hvisit, ht, hnames⟩ := generator_inv h₁
    have hsource : .expr g.source ∈ m.parts (.expr e) := htail.parts _ (List.mem_append_left _ List.mem_cons_self)
    have htypes := hv.types (hr.part hsource) ho (hf g List.mem_cons_self) hvisit
    have hgenerates := htail.generates hm hr hk htypes ht hnames
    refine htail.generates_cons hm hr hk hgenerates (ih htail.next hgenerates.ongoing (fun g' hg' => ?_) h)
    have hmem : .expr g'.source ∈ gs.flatMap Generator.parts := List.mem_flatMap.mpr ⟨g', hg', List.mem_cons_self⟩
    refine (hf g' (List.mem_cons_of_mem _ hg')).alters hm.tree
      (hr.part (htail.next.parts _ (List.mem_append_left _ hmem))) ho.alters hgenerates.alters ?_
    rintro x hx ⟨s, hs, hsx⟩
    exact htail.separate hm hr (by simpa using hs) (List.mem_append_left _ hmem) x hsx hx

theorem tail_generators : m.Tail e c (c.guard.toList.map .expr ++ [.expr c.body]) c.generators := by
  have hparts : (m.kind e).parts Generator.parts =
      c.generators.flatMap Generator.parts ++ (c.guard.toList.map .expr ++ [.expr c.body]) := by
    rw [hk, ExprKind.parts, List.append_assoc]
  refine ⟨fun s hs => List.mem_append_left _ (hparts ▸ hs), ?_, fun _ h => h, fun _ _ _ _ _ h => h⟩
  rw [← hparts]
  exact (List.nodup_append'.mp (hm.tree.once hr)).1

-- The guard and the body come after all generators.
theorem Visiting.gathers_comp (hv : m.Visiting root n visit) (ho : m.Ongoing root m₁) (hf : m.Fresh (.expr e) m₁)
    (h : Runs (gather visit (.comp c)) m₁ ⟨⟩ m₂) : m.Gathers root n e m₁ m₂ := by
  have htail := tail_generators hm hr hk
  have hparts : ∀ gen, (m.kind e).parts gen = c.generators.flatMap gen ++ (c.guard.toList.map .expr ++ [.expr c.body]) := by
    intro gen
    rw [hk, ExprKind.parts, List.append_assoc]
  obtain ⟨_, m', h₁, h₂⟩ := Runs.bind_inv (fun _ => .forM fun s _ => hv.quiet s) h
  generalize c.guard.toList.map Site.expr ++ [Site.expr c.body] = rest at htail hparts h₂
  have hin : ∀ b ∈ rest, b ∈ m.parts (.expr e) := fun b hb => htail.parts b (List.mem_append_right _ hb)
  obtain ⟨-, hnodup, hne⟩ := List.nodup_append'.mp htail.once
  have hsep : ∀ s ∈ c.generators.flatMap Generator.parts, ∀ b ∈ rest, m.Separate s b := fun s hs b hb =>
    hm.tree.separate hr (htail.parts s (List.mem_append_left _ hs)) (hin b hb) fun h => hne hs (h ▸ hb)
  have hsource : ∀ g ∈ c.generators, .expr g.source ∈ c.generators.flatMap Generator.parts := fun g hg =>
    List.mem_flatMap.mpr ⟨g, hg, List.mem_cons_self⟩
  have hsources : ∀ g ∈ c.generators, .expr g.source ∈ m.parts (.expr e) := fun g hg =>
    htail.parts _ (List.mem_append_left _ (hsource g hg))
  have hgen := hv.generators hm hr hk htail ho (fun g hg => hf.part (hsources g hg)) h₁
  have hrest : m.Types root n rest m' m₂ := by
    refine hv.sites hm hr hin hnodup hgen.ongoing (fun b hb => ?_) h₂
    refine (hf.part (hin b hb)).alters hm.tree (hr.part (hin b hb)) ho.alters hgen.alters ?_
    rintro x hx ⟨s, hs, hsx⟩
    exact hsep s hs b hb x hsx hx
  have hdone : ∀ g ∈ c.generators, m.Visited n (.expr g.source) m₂ ∧ m₂.Ranges g := by
    intro g hg
    obtain ⟨hvisited, hrange⟩ := hgen.done g hg
    refine hvisited.generated_stays hm hrange hgen.ongoing hrest.ongoing (fun b hb => hr.part (hin b hb)) ?_ hrest.alters ?_
    · exact fun hs b hb => hsep _ (List.mem_flatMap.mpr ⟨g, hg, hs⟩) b hb
    · intro y name d hy hident hknown
      have hyr := (hr.part (hsources g hg)).trans hy
      refine hrest.kept hknown fun b hb => hm.not_rangesIn hyr (hr.part (hin b hb)) ?_ hident
      exact hsep _ (hsource g hg) b hb _ hy
  constructor
  case ongoing => exact hrest.ongoing
  case alters =>
    rw [hparts]
    refine (hgen.alters.mono ?_).trans (hrest.alters.mono ?_)
    · rintro x ⟨s, hs, hx⟩
      exact ⟨s, List.mem_append_left _ hs, hx⟩
    · rintro x ⟨s, hs, hx⟩
      exact ⟨s, List.mem_append_right _ hs, hx⟩
  case kept =>
    intro d hknown hn
    have heq := hgen.kept hknown fun g hg => ⟨fun hd => hn ⟨e, c, g, .refl, hk, hg, hd⟩,
      fun hrange => hn (hrange.mono (.single (hsources g hg)))⟩
    rw [← heq] at hknown
    exact (hrest.kept hknown fun b hb hrange => hn (hrange.mono (.single (hin b hb)))).trans heq
  case done =>
    rw [hparts]
    intro s hs
    rcases List.mem_append.mp hs with hs | hs
    · obtain ⟨g, hg, hs⟩ := List.mem_flatMap.mp hs
      exact List.mem_singleton.mp hs ▸ (hdone g hg).1
    · exact hrest.done s hs
  case ranges =>
    intro c' hk' g hg
    cases hk.symm.trans hk'
    exact (hdone g hg).2

end Steps

end Generators

end Model
end Parvar
