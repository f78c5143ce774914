import Parvar.Proofs.Typing.Declaring

/-!
Typing is done once and for all. What has been typed without an error is settled, and typing it again
changes nothing: no type, no resolved function, and no coercion is added.
-/

namespace Parvar

open Model Typing

namespace Model

variable {m m₁ m₂ m₃ : Model} {root s : Site} {n k : Nat} {visit : Visit} {e : ExprId}

section Expressions

variable (hv : m.Visiting root n visit) (hm : m.Checkable root) (hr : m.Contains root (.expr e))
  (ho : m.Ongoing root m₁) (hf : m.Fresh (.expr e) m₁)

include hv hm hr ho hf

-- Only a comprehension does something between its parts.
theorem Visiting.gathers (h : Runs (gather visit (m.kind e)) m₁ ⟨⟩ m₂) : m.Gathers root n e m₁ m₂ := by
  by_cases hcomp : ∃ c, m.kind e = .comp c
  · obtain ⟨c, hk⟩ := hcomp
    rw [hk] at h
    exact hv.gathers_comp hm hr hk ho hf h
  · have hgather : gather visit (m.kind e) = ((m.kind e).parts Generator.parts).forM visit := by
      cases hk : m.kind e with
      | comp c => exact absurd ⟨c, hk⟩ hcomp
      | _ => rfl
    rw [hgather] at h
    have hin : ∀ c ∈ (m.kind e).parts Generator.parts, c ∈ m.parts (.expr e) := fun c hc => List.mem_append_left _ hc
    have honce := (List.nodup_append'.mp (hm.tree.once hr)).1
    have ht := hv.sites hm hr hin honce ho (fun c hc => hf.part (hin c hc)) h
    refine ⟨ht.ongoing, ht.alters, fun hk hn => ht.kept hk fun c hc hrange => ?_, fun c hc => ?_, fun c hk => ?_⟩
    · exact hn (hrange.mono (.single (hin c hc)))
    · exact ht.done c (ExprKind.parts_subset _ hc)
    · exact absurd ⟨c, hk⟩ hcomp

theorem Visiting.expr (h : Runs (Typing.expr visit e) m₁ ⟨⟩ m₃) : m.Types root (n + 2) [.expr e] m₁ m₃ := by
  have hkind : m₁.kind e = m.kind e := by
    have hsame : m₁.expr e = m.expr e := hf _ .refl
    rw [kind, hsame, kind]
  rw [Runs, Typing.expr, checkM_model_bind, hkind] at h
  obtain ⟨_, m₂, h₁, h₂⟩ := Runs.bind_inv (fun _ => .bind .model fun _ _ => upholds_annotations hv.quiet _) h
  rw [node_eq] at h₁
  obtain ⟨_, m', hgather, hfinish⟩ := Runs.bind_inv (fun _ => upholds_finish stable_reported _) h₁
  rw [Runs, checkM_model_bind] at h₂
  exact ((hv.gathers hm hr ho hf hgather).completes hm hr ho hf hfinish).types hm hr hv ho hf h₂

end Expressions

section Walks

theorem Types.mono {cs : List Site} (h : m.Types root n cs m₁ m₂) (hk : n ≤ k) : m.Types root k cs m₁ m₂ where
  ongoing := h.ongoing
  alters := h.alters
  kept := h.kept
  done c hc := { h.done c hc with toDone := (h.done c hc).toDone.mono hk }

-- Each link of the expression becomes at most two, one of them a coercion.
theorem Checkable.visiting_walk (hm : m.Checkable root) (fuel : Nat) : m.Visiting root (2 * fuel) (walk .check fuel) := by
  refine ⟨upholds_walk stable_reported .check fuel, ?_⟩
  induction fuel with
  | zero =>
    intro s m₁ m₂ _ _ _ h
    cases h
  | succ fuel ih =>
    intro s m₁ m₂ hr ho hf h
    have hv : m.Visiting root (2 * fuel) (walk .check fuel) := ⟨upholds_walk stable_reported .check fuel, ih⟩
    cases s with
    | expr e => exact hv.expr hm hr ho hf h
    | decl d => exact hv.decl hm hr ho hf h
    | typeInst t => exact (hv.typeInst hm hr ho hf h).mono (Nat.le_succ _)

end Walks

section Depth

-- What is settled all the way down does not stand in itself.
theorem Checked.not_circular (h : m.Checked n s) : ¬Relation.TransGen (fun s c => c ∈ m.uses s) s s := by
  induction n generalizing s with
  | zero => exact h.elim
  | succ n ih =>
    intro hs
    obtain ⟨c, hc, hcs⟩ := Relation.TransGen.head'_iff.mp hs
    exact ih (h.2.2 c hc) (Relation.TransGen.tail' hcs hc)

-- No node is met twice on a way down.
theorem Checked.of_subset {l : Finset Site} (h : m.Checked n s) (hl : ∀ x, m.Uses s x → x ∈ l) : m.Checked l.card s := by
  induction n generalizing s l with
  | zero => exact h.elim
  | succ n ih =>
    rw [← Finset.card_erase_add_one (hl s .refl)]
    refine ⟨h.1, h.2.1, fun c hc => ih (h.2.2 c hc) fun x hx => Finset.mem_erase.mpr ⟨?_, hl x (.head hc hx)⟩⟩
    rintro rfl
    exact h.not_circular (.head' hc hx)

theorem exists_nodes (m : Model) : ∃ l : Finset Site, (∀ s, m.Present s → s ∈ l) ∧ l.card ≤ m.size := by
  let es := (Finset.range m.exprs.size).image (Site.expr ∘ ExprId.mk)
  let ds := (Finset.range m.decls.size).image (Site.decl ∘ DeclId.mk)
  let ts := (Finset.range m.typeInsts.size).image (Site.typeInst ∘ TypeInstId.mk)
  refine ⟨es ∪ ds ∪ ts, fun s hs => ?_, ?_⟩
  · rw [Finset.mem_union, Finset.mem_union]
    cases s with
    | expr e => exact .inl (.inl (Finset.mem_image.mpr ⟨_, Finset.mem_range.mpr hs, rfl⟩))
    | decl d => exact .inl (.inr (Finset.mem_image.mpr ⟨_, Finset.mem_range.mpr hs, rfl⟩))
    | typeInst t => exact .inr (Finset.mem_image.mpr ⟨_, Finset.mem_range.mpr hs, rfl⟩)
  · have he : es.card ≤ m.exprs.size := Finset.card_image_le.trans (Finset.card_range _).le
    have hd : ds.card ≤ m.decls.size := Finset.card_image_le.trans (Finset.card_range _).le
    have ht : ts.card ≤ m.typeInsts.size := Finset.card_image_le.trans (Finset.card_range _).le
    have h₁ := Finset.card_union_le (es ∪ ds) ts
    have h₂ := Finset.card_union_le es ds
    rw [size]
    omega

end Depth

theorem runs_assignTypes : Runs (assignTypes .check s) m ⟨⟩ m₁ ↔ Runs (walk .check m.walkFuel s) m ⟨⟩ m₁ := by
  rw [Runs, Runs, assignTypes]

end Model

-- A typed expression is not changed by typing it again, and there is nothing to report.
theorem typing_idempotent {m m' : Model} {e : ExprId} (hm : m.Checkable (.expr e))
    (h : assignTypes .check (.expr e) { model := m } = .ok ⟨⟩ { model := m' }) :
    assignTypes .check (.expr e) { model := m' } = .ok ⟨⟩ { model := m' } := by
  have ho : m.Ongoing (.expr e) m := ⟨.refl _ _, fun _ _ => rfl, fun _ => rfl, hm.declared⟩
  have hf : m.Fresh (.expr e) m := fun c _ => by cases c <;> rfl
  have ht := (hm.visiting_walk m.walkFuel).types .refl ho hf (runs_assignTypes.mp h)
  obtain ⟨hchecked, hreach⟩ := (ht.done (.expr e) (List.mem_singleton.mpr rfl)).toDone
  obtain ⟨l, hl, hcard⟩ := m'.exists_nodes
  have hfuel : l.card ≤ m'.walkFuel := by
    have hsq := Nat.le_mul_self (m'.size + 2)
    rw [walkFuel]
    omega
  exact runs_assignTypes.mpr ((hchecked.of_subset fun x hx => hl x (hreach hx).1).runs hfuel)

section Samples

namespace Model

-- The model that typing leads to if there is no error.
def typed? (m : Model) (s : Site) : Option Model :=
  match assignTypes .check s { model := m } with
  | .ok _ c => if c.errors.isEmpty then some c.model else none
  | .error _ _ => none

theorem typed_eq_some {m m' : Model} {s : Site} : m.typed? s = some m' ↔ Runs (assignTypes .check s) m ⟨⟩ m' := by
  rw [typed?, Runs]
  rcases assignTypes .check s { model := m } with ⟨⟨⟩, c, errors⟩ | _
  · by_cases he : errors = #[] <;> simp [he]
  · simp

section Sorting

variable {m : Model} {root : Site} {sites : List Site}

theorem regular_of_table (h : ∀ p ∈ m.overloads, ∀ f ∈ p.2,
    (∀ q ∈ (m.func f).params, (m.paramTy q).base ≠ .bot ∧ (m.paramTy q).Flat) ∧
      (m.typeInst (m.func f).ret).ty.Concrete) : m.sortOverloads.Regular := by
  constructor
  · intro f p hf hp
    obtain ⟨name, fs, hmem, hf⟩ := registered_of_sorted hf
    exact (h _ hmem f hf).1 p hp
  · intro f hf
    obtain ⟨name, fs, hmem, hf⟩ := registered_of_sorted hf
    exact (h _ hmem f hf).2

theorem apart_of_table (h : ∀ p ∈ m.overloads, ∀ f ∈ p.2, .typeInst (m.func f).ret ∉ sites ∧
    ∀ q ∈ (m.func f).params, .decl q ∉ sites ∧ .typeInst (m.decl q).ti ∉ sites)
    (hm : ∀ {s}, m.sortOverloads.Contains root s → s ∈ sites) {f : FuncId} (hf : m.sortOverloads.Registered f) :
    ¬m.sortOverloads.Contains root (.typeInst (m.sortOverloads.func f).ret) ∧
      ∀ q ∈ (m.sortOverloads.func f).params, ¬m.sortOverloads.Contains root (.decl q) ∧
        ¬m.sortOverloads.Contains root (.typeInst (m.sortOverloads.decl q).ti) := by
  obtain ⟨name, fs, hmem, hf⟩ := registered_of_sorted hf
  obtain ⟨hret, hparams⟩ := h _ hmem f hf
  exact ⟨fun hs => hret (hm hs), fun q hq => ⟨fun hs => (hparams q hq).1 (hm hs), fun hs => (hparams q hq).2 (hm hs)⟩⟩

theorem Proper.of_sites (hp : m.Promotes) (hreg : m.Regular) (hd : ∀ x ∈ m.decls, x.ty.base ≠ .bot) (hr : root ∈ sites)
    (hc : ∀ s ∈ sites, m.parts s ⊆ sites) (hs : ∀ s ∈ sites, m.ProperAt s) : m.Proper root where
  promotes := hp
  regular := hreg
  declared d := by
    by_cases hlt : d.index < m.decls.size
    · have hget : m.decl d = m.decls[d.index] := by simp [decl, hlt]
      exact hget ▸ hd _ (Array.getElem_mem hlt)
    · rw [decl_of_le (Nat.le_of_not_lt hlt)]
      exact fun h => by cases h
  node h := hs _ (h.mem_of_closed hr hc)

end Sorting

end Model

-- `let { float: x = 1 } in [{i, x} | i in {true, 2}]`
def letModel : Model where
  exprs := #[{ kind := .int 1, ty := .parInt }, { kind := .bool true, ty := .parBool }, { kind := .int 2, ty := .parInt },
    { kind := .setLit [⟨1⟩, ⟨2⟩] }, { kind := .ident "i" (some ⟨1⟩) }, { kind := .ident "x" (some ⟨0⟩) },
    { kind := .setLit [⟨4⟩, ⟨5⟩] },
    { kind := .comp { body := ⟨6⟩, generators := [{ decls := [⟨1⟩], source := ⟨3⟩ }], guard := none, isSet := false } },
    { kind := .letIn { items := [.decl ⟨0⟩], body := ⟨7⟩, origin := [] } }]
  decls := #[{ name := "x", ti := ⟨0⟩, init := some ⟨0⟩ }, { name := "i", ti := ⟨1⟩ }]
  typeInsts := #[{ ty := .parFloat }, { ty := .unknown }]

def letSites : List Site :=
  [.expr ⟨8⟩, .expr ⟨7⟩, .expr ⟨6⟩, .expr ⟨5⟩, .expr ⟨4⟩, .expr ⟨3⟩, .expr ⟨2⟩, .expr ⟨1⟩, .expr ⟨0⟩,
    .decl ⟨0⟩, .decl ⟨1⟩, .typeInst ⟨0⟩, .typeInst ⟨1⟩]

theorem checkable_letModel : letModel.withCoercions.Checkable (.expr ⟨8⟩) := by
  have hc : ∀ s ∈ letSites, letModel.withCoercions.parts s ⊆ letSites := by decide +kernel
  have hmem : ∀ {s}, letModel.withCoercions.Contains (.expr ⟨8⟩) s → s ∈ letSites := fun h =>
    h.mem_of_closed List.mem_cons_self hc
  have hext := extends_withCoercions letModel
  constructor
  case toProper =>
    refine .of_sites (promotes_withCoercions (by decide)) (regular_of_table (by decide +kernel)) (by decide +kernel)
      List.mem_cons_self hc (by decide +kernel)
  case tree => exact .of_nodup letSites List.mem_cons_self hc (by decide +kernel) (by decide +kernel)
  case apart => exact apart_of_table (by decide +kernel) hmem
  case lexical =>
    intro x name d y c g hx hkx hy hky hg hd
    have hpres : ∀ s ∈ letSites, letModel.Present s := by decide
    rw [kind, hext.expr_eq (hpres _ (hmem hx))] at hkx
    rw [kind, hext.expr_eq (hpres _ (hmem hy))] at hky
    have hin : letModel.withCoercions.Contains (.expr ⟨6⟩) (.expr ⟨4⟩) := .single (by decide +kernel)
    obtain ⟨i⟩ := x
    have hi : i < 9 := hpres _ (hmem hx)
    obtain ⟨j⟩ := y
    have hj : j < 9 := hpres _ (hmem hy)
    interval_cases j <;> cases hky
    obtain rfl := List.mem_singleton.mp hg
    obtain rfl := List.mem_singleton.mp hd
    interval_cases i <;> cases hkx
    exact ⟨.expr ⟨6⟩, by decide, hin⟩

theorem letModel_typed_once : ∃ m', assignTypes .check (.expr ⟨8⟩) { model := letModel.withCoercions } =
      .ok ⟨⟩ { model := m' } ∧ ((m'.decl ⟨0⟩).init = some ⟨11⟩ ∧ m'.kind ⟨11⟩ = .call "int2float" [⟨0⟩] (some ⟨2⟩)) ∧
    assignTypes .check (.expr ⟨8⟩) { model := m' } = .ok ⟨⟩ { model := m' } := by
  have hrun : (letModel.withCoercions.typed? (.expr ⟨8⟩)).map (fun m => ((m.decl ⟨0⟩).init, m.kind ⟨11⟩)) =
      some (some ⟨11⟩, .call "int2float" [⟨0⟩] (some ⟨2⟩)) := by cbv
  obtain ⟨m', hm', hnodes⟩ := Option.map_eq_some_iff.mp hrun
  have h := typed_eq_some.mp hm'
  exact ⟨m', h, Prod.mk.inj hnodes, typing_idempotent checkable_letModel h⟩

-- `let { constraint [{i, 1} | i in {2}]; constraint [{i, 1} | i in [y]] } in true` with `float: y`, where the two
-- comprehensions have one body, and one name for what they run through.
def sharedModel : Model where
  exprs := #[{ kind := .ident "i" (some ⟨0⟩) }, { kind := .int 1, ty := .parInt }, { kind := .setLit [⟨0⟩, ⟨1⟩] },
    { kind := .int 2, ty := .parInt }, { kind := .setLit [⟨3⟩] },
    { kind := .comp { body := ⟨2⟩, generators := [{ decls := [⟨0⟩], source := ⟨4⟩ }], guard := none, isSet := false } },
    { kind := .ident "y" (some ⟨1⟩) }, { kind := .arrayLit [⟨6⟩] [(1, 1)] },
    { kind := .comp { body := ⟨2⟩, generators := [{ decls := [⟨0⟩], source := ⟨7⟩ }], guard := none, isSet := false } },
    { kind := .bool true, ty := .parBool },
    { kind := .letIn { items := [.constraint ⟨5⟩, .constraint ⟨8⟩], body := ⟨9⟩, origin := [] } }]
  decls := #[{ name := "i", ti := ⟨0⟩ }, { name := "y", ti := ⟨1⟩, ty := .parFloat }]
  typeInsts := #[{ ty := .unknown }, { ty := .parFloat }]

def sharedSites : List Site :=
  [.expr ⟨10⟩, .expr ⟨9⟩, .expr ⟨8⟩, .expr ⟨7⟩, .expr ⟨6⟩, .expr ⟨5⟩, .expr ⟨4⟩, .expr ⟨3⟩, .expr ⟨2⟩, .expr ⟨1⟩,
    .expr ⟨0⟩, .decl ⟨0⟩, .typeInst ⟨0⟩]

-- The body is typed twice, and what the second typing makes of it is not as the first one needs it.
theorem shared_body_retyped : sharedModel.withCoercions.Proper (.expr ⟨10⟩) ∧
    ∃ m', assignTypes .check (.expr ⟨10⟩) { model := sharedModel.withCoercions } = .ok ⟨⟩ { model := m' } ∧
      ∀ m'', assignTypes .check (.expr ⟨10⟩) { model := m' } ≠ .ok ⟨⟩ { model := m'' } := by
  constructor
  · have hc : ∀ s ∈ sharedSites, sharedModel.withCoercions.parts s ⊆ sharedSites := by decide +kernel
    exact .of_sites (promotes_withCoercions (by decide)) (regular_of_table (by decide +kernel)) (by decide +kernel)
      List.mem_cons_self hc (by decide +kernel)
  · have hrun : (sharedModel.withCoercions.typed? (.expr ⟨10⟩)).map (·.typed? (.expr ⟨10⟩) |>.isNone) = some true := by
      cbv
    obtain ⟨m', hm', hnone⟩ := Option.map_eq_some_iff.mp hrun
    refine ⟨m', typed_eq_some.mp hm', fun m'' h => ?_⟩
    rw [typed_eq_some.mpr h] at hnone
    cases hnone

end Samples
end Parvar
