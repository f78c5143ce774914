import Parvar.Proofs.Typing.Generating
import Parvar.Proofs.Typing.Sorted

/-!
Typing of declarations and of the types they are written with. A base or a rank that was left open is
filled in once, and an initializer that does not have the declared type is wrapped into a coercion.
-/

namespace Parvar

open Model Typing

section Rules

variable {t u : Ty}

namespace Rules

namespace Filled

variable (h : Filled t u)

include h

theorem dim_eq : u.dim = t.dim := by
  have hmark : ∀ part, (markedBy t part).dim = t.dim := fun part => by
    obtain h | h := marks_markedBy t part <;> rw [h]
    rfl
  cases h <;> exact hmark _

theorem cv (ht : t.cv) : u.cv := by
  cases h <;> exact (cv_markedBy t _).1 ht

theorem is_known : u.Known := by
  cases h with
  | known part hk => exact known_markedBy.mpr hk
  | base part hk hb => obtain rfl | rfl := hb <;> exact fun h => by cases h

theorem not_bot (ht : t.base ≠ .bot) : u.base ≠ .bot := by
  cases h with
  | known part hk => exact base_markedBy t part ▸ ht
  | base part hk hb => obtain rfl | rfl := hb <;> exact fun h => by cases h

end Filled

theorem domainBase_of_concrete {x : Operand} {b : Base} (hx : x.ty.Concrete) (h : domainBase x = .ok b) :
    b = x.ty.base := by
  rw [domainBase] at h
  split at h
  · next hb => cases h; exact hb.symm
  · next hb => exact absurd hb hx.not_bot
  · next hb => cases h; exact hb.symm
  · cases h

-- With one index at most there are no arrays of more dimensions.
theorem rank_flat {x : TypeInst} {f : TypeInstId → Ty × Span} (hx : x.IsFlat) (h : rank x.ty (x.ranges.map f) = .ok u) :
    u.base ≠ .bot ∧ u.Flat := by
  obtain ⟨-, rfl⟩ | ⟨hne, hm⟩ := rank_eq_ok h
  · exact ⟨hx.not_bot, hx.flat⟩
  · refine ⟨hm.base_eq ▸ hx.not_bot, ?_⟩
    have hlen : (x.ranges.map f).length = 1 := by
      have hpos := List.length_pos_iff.mpr hne
      have hle := hx.ranges
      rw [List.length_map] at hpos ⊢
      omega
    have hdim : u.dim =
        (x.ty.withDim (if (x.ranges.map f).any (·.1.same .top) then -1 else (x.ranges.map f).length)).dim := by
      obtain rfl | rfl := hm <;> rfl
    rw [Ty.Flat, hdim, hlen]
    split
    · exact .inl rfl
    · exact .inr (.inr rfl)

end Rules
end Rules

namespace Typing

-- A type-inst, after the ranges and the domain in it.
def finishTypeInst (t : TypeInstId) (x : TypeInst) : CheckM Unit := do
  let m ← CheckM.model
  let ty ← CheckM.ofExcept (Rules.rank x.ty (x.ranges.map fun r => ((m.typeInst r).ty, (m.typeInst r).span)))
  let ty ← typeIn ty x.span x.domain
  CheckM.ofExcept (Rules.elemBase ty x.span)
  CheckM.changeModel (·.setTypeInstTy t ty)

-- A declaration, after all that is in it.
def finishDecl (d : DeclId) (x : Decl) : CheckM Unit := do
  let m ← CheckM.model
  let declared := (m.typeInst x.ti).ty
  if (m.decl d).ty.isUnknown then CheckM.changeModel (·.setDeclTy d declared)
  x.init.toList.forM (initial d declared)

variable {visit : Visit}

theorem forM_append {cs ds : List Site} : (cs ++ ds).forM visit = cs.forM visit >>= fun _ => ds.forM visit := by
  simp only [List.forM_eq_forM, List.forM_append]

theorem typeInst_eq (t : TypeInstId) : Typing.typeInst visit t = (do
    let m ← CheckM.model
    (m.parts (.typeInst t)).forM visit
    finishTypeInst t (m.typeInst t)) := by
  have hranges : ∀ rs : List TypeInstId, (rs.forM fun r => visit (.typeInst r)) = (rs.map .typeInst).forM visit := by
    intro rs
    rw [List.forM_eq_forM, List.forM_eq_forM, List.forM_map]
  simp only [Typing.typeInst, parts, partsBy, forM_append, bind_assoc, hranges, exprs_eq, finishTypeInst]

theorem decl_eq (d : DeclId) : Typing.decl .check visit d = (do
    let m ← CheckM.model
    (m.needs d).forM visit
    annotations visit (m.decl d).ann
    finishDecl d (m.decl d)) := by
  simp only [Typing.decl, needs, exprs_eq, finishDecl, List.forM_eq_forM (α := Site), List.forM_cons, bind_assoc]

theorem quiet_finishTypeInst (t : TypeInstId) (x : TypeInst) : Upholds Checking.Reported (finishTypeInst t x) :=
  .bind .model fun _ _ => .bind (.ofExcept _) fun ty _ =>
    .bind (maintains_typeIn (I := Checking.Reported) stable_reported.setTy ty _ _) fun _ _ =>
      .bind (.ofExcept _) fun _ _ => .changeModel fun _ h => h

theorem quiet_finishDecl (d : DeclId) (x : Decl) : Upholds Checking.Reported (finishDecl d x) := by
  refine .bind .model fun m _ => .when (.changeModel fun _ h => h) (.forM fun a _ => .seq (.operand a) fun x => ?_)
  split
  · exact .seq (.coerce stable_reported _ _) fun b => .changeModel fun _ h => h
  · exact .bind .model fun _ _ => .report stable_reported.report _ _

end Typing

section TypeInsts

namespace Model

variable {m m' : Model} {t u : Ty} {span : Span} {domain : Option ExprId}

-- A domain with a base keeps it.
theorem typeIn_filled (hd : ∀ a ∈ domain, (m.ty a).Concrete) (h : Runs (typeIn t span domain) m u m') :
    m' = m ∧ Rules.Filled t u ∧ ∀ a ∈ domain, Rules.domain u (m.operand a) (m.kind a).isTypeVar = .ok u := by
  cases domain with
  | none =>
    obtain ⟨hk, h⟩ := Runs.of_guard (f := fun _ => pure t) h
    cases h
    exact ⟨rfl, .known .unknown (Ty.known_iff.mpr hk), fun _ h => by cases h⟩
  | some a =>
    rw [Runs, typeIn, checkM_model_bind] at h
    obtain ⟨v, hv, h⟩ := Runs.ofExcept_bind h
    obtain rfl := Rules.domain_eq_ok hv
    split at h
    · next hk =>
      obtain ⟨b, hb, h⟩ := Runs.ofExcept_bind h
      obtain rfl : b = (m.ty a).base := Rules.domainBase_of_concrete (hd a rfl) hb
      cases h
      refine ⟨modifyExpr_self rfl, .base _ ?_ (Rules.domainBase_eq_ok hb), ?_⟩
      · exact fun hk' => Ty.known_iff.mp (Rules.known_markedBy.mpr hk') hk
      · rintro _ ⟨⟩
        exact Rules.domain_again hv id
    · next hk =>
      cases h
      refine ⟨rfl, .known _ (Rules.known_markedBy.mp (Ty.known_iff.mpr hk)), ?_⟩
      rintro _ ⟨⟩
      exact Rules.domain_again hv id

theorem finishTypeInst_inv {i : TypeInstId} {x : TypeInst} (hd : ∀ a ∈ x.domain, (m.ty a).Concrete)
    (h : Runs (finishTypeInst i x) m ⟨⟩ m') : ∃ t u,
      Rules.rank x.ty (x.ranges.map fun r => ((m.typeInst r).ty, (m.typeInst r).span)) = .ok t ∧ Rules.Filled t u ∧
      (∀ a ∈ x.domain, Rules.domain u (m.operand a) (m.kind a).isTypeVar = .ok u) ∧
      Rules.elemBase u x.span = .ok () ∧ m' = m.setTypeInstTy i u := by
  rw [Runs, finishTypeInst, checkM_model_bind] at h
  obtain ⟨t, hrank, h₁⟩ := Runs.ofExcept_bind h
  obtain ⟨u, m₁, hin, h₂⟩ := Runs.bind_inv (fun _ => .bind (.ofExcept _) fun _ _ => .changeModel fun _ h => h) h₁
  obtain ⟨rfl, hfilled, hdomain⟩ := typeIn_filled hd hin
  obtain ⟨_, helem, h₃⟩ := Runs.ofExcept_bind h₂
  cases h₃
  exact ⟨t, u, hrank, hfilled, hdomain, helem, rfl⟩

end Model
end TypeInsts

namespace Model

variable {m m₁ m₂ m₃ : Model} {root s : Site} {n k : Nat} {visit : Visit}

section Own

variable (hm : m.Checkable root) (hr : m.Contains root s)

include hm hr

theorem Types.same (ht : m.Types root n (m.parts s) m₁ m₂) (ho : m.Ongoing root m₁) (hf : m.Fresh s m₁) :
    m.SameAt m₂ s := by
  refine (hf s .refl).trans (ht.alters.same (ho.alters.present (hm.tree.present hr)) ?_)
  rintro ⟨c, hc, hcs⟩
  exact hm.tree.not_contains_of_mem hr hc hcs

variable (ht : m.Types root n (m.parts s) m₁ m₂) (ha : m₂.Alters (· = s) m₃) (ho : m.Ongoing root m₃)
  (hkept : ∀ {d}, (m₂.decl d).ty.Known → (m₃.decl d).ty = (m₂.decl d).ty)

include ht ha ho hkept

-- After the parts of a node only the node itself changes.
theorem Types.parts_done : ∀ c ∈ m.parts s, m.Done n c c m₃ := by
  intro c hc
  refine (ht.done c hc).toDone.alters hm ht.ongoing ho ha ?_ fun _ _ => hkept
  rintro x rfl
  exact ⟨hm.tree.present hr, hm.tree.not_contains_of_mem hr hc⟩

omit hm hr in
theorem Types.close (hv : m.Visited k s m₃) : m.Types root k [s] m₁ m₃ := by
  refine ⟨ho, (ht.alters.mono ?_).trans (ha.mono ?_), fun {d} hd hn => ?_, fun c hc => List.mem_singleton.mp hc ▸ hv⟩
  · rintro x ⟨c, hc, hx⟩
    exact ⟨s, List.mem_singleton.mpr rfl, .head hc hx⟩
  · rintro x rfl
    exact ⟨x, List.mem_singleton.mpr rfl, .refl⟩
  · have heq := ht.kept hd fun c hc hrange => hn s (List.mem_singleton.mpr rfl) (hrange.mono (.single hc))
    rw [← heq] at hd
    exact (hkept hd).trans heq

end Own

theorem Visiting.typeInst {i : TypeInstId} (hv : m.Visiting root n visit) (hm : m.Checkable root)
    (hr : m.Contains root (.typeInst i)) (ho : m.Ongoing root m₁) (hf : m.Fresh (.typeInst i) m₁)
    (h : Runs (Typing.typeInst visit i) m₁ ⟨⟩ m₃) : m.Types root (n + 1) [.typeInst i] m₁ m₃ := by
  rw [typeInst_eq, Runs, checkM_model_bind] at h
  obtain ⟨_, m₂, h₁, h⟩ := Runs.bind_inv (fun _ => quiet_finishTypeInst _ _) h
  have hx : m₁.typeInst i = m.typeInst i := hf _ .refl
  have hparts : m₁.parts (.typeInst i) = m.parts (.typeInst i) := (hf _ .refl).parts_eq
  rw [hparts] at h₁
  rw [hx] at h
  have ht := hv.sites hm hr (fun _ h => h) (hm.tree.once hr) ho (fun c hc => hf.part hc) h₁
  have hsame : m₂.typeInst i = m.typeInst i := ht.same hm hr ho hf
  have hdomain : ∀ a ∈ (m.typeInst i).domain, .expr a ∈ m.parts (.typeInst i) := fun a ha =>
    List.mem_append_right _ (List.mem_map_of_mem (Option.mem_toList.mpr ha))
  obtain ⟨t, u, hrank, hfilled, hagain, helem, rfl⟩ :=
    finishTypeInst_inv (fun a ha => ((ht.done _ (hdomain a ha)).typed rfl).1) h
  have ha : m₂.Alters (· = .typeInst i) (m₂.setTypeInstTy i u) := alters_modifyTypeInst _
  have ho₃ : m.Ongoing root (m₂.setTypeInstTy i u) := by
    refine ⟨ht.ongoing.alters.trans (ha.mono ?_), ht.ongoing.plain, ht.ongoing.tis, ht.ongoing.declared⟩
    rintro x rfl
    exact hr
  have hpres : m₂.Present (.typeInst i) := ht.ongoing.alters.present (hm.tree.present hr)
  have hself : (m₂.setTypeInstTy i u).typeInst i = { m.typeInst i with ty := u } := by
    rw [setTypeInstTy, typeInst_modifyTypeInst, if_pos ⟨rfl, hpres⟩, hsame]
  have hranges : ∀ r ∈ (m.typeInst i).ranges, (m₂.setTypeInstTy i u).typeInst r = m₂.typeInst r := by
    intro r hr'
    refine ha.typeInst_eq fun h => ?_
    have hmem : .typeInst r ∈ m.parts (.typeInst i) := List.mem_append_left _ (List.mem_map_of_mem hr')
    exact hm.tree.not_contains_of_mem hr hmem (h ▸ .refl)
  have hdone := ht.parts_done hm hr ha ho₃ fun _ => rfl
  refine ht.close ha ho₃ (fun _ => rfl) ⟨.of_uses ⟨?_, ?_, ?_, ?_⟩ (fun _ h => by cases h) (ha.present hpres)
    (.inl .refl) ?_, ?_, ?_⟩
  · rw [hself, List.map_congr_left fun r hr' => by rw [hranges r hr']]
    exact Rules.rank_again hrank hfilled.dim_eq hfilled.cv
  · rw [hself]
    exact hagain
  · rw [hself]
    exact hfilled.is_known
  · rw [hself]
    exact helem
  · rw [uses, partsBy, hself]
    exact fun c hc => ⟨c, .single hc, hdone c hc⟩
  · rintro _ ⟨⟩
  · rintro _ ⟨⟩ hflat
    rw [hself]
    obtain ⟨hbot, hrankflat⟩ := Rules.rank_flat hflat hrank
    exact ⟨hfilled.not_bot hbot, by rw [Ty.Flat, hfilled.dim_eq]; exact hrankflat, hflat.ranges⟩

section Initialisers

-- From `m` to `m'` a declaration has got a type, and its initializer was turned into a value of the declared one.
structure Initialises (d : DeclId) (declared : Ty) (m m' : Model) : Prop where
  alters : m.Alters (· = .decl d) m'
  plain : ∀ x, (m'.kind x).isPlain = false → m'.kind x = m.kind x
  ti : (m'.decl d).ti = (m.decl d).ti
  ann : (m'.decl d).ann = (m.decl d).ann
  ty : (m'.decl d).ty = if (m.decl d).ty.isUnknown then declared else (m.decl d).ty
  init : ∀ b ∈ (m'.decl d).init, ∃ a ∈ (m.decl d).init, (m.ty a).sub declared ∧ (m.ty a).Becomes declared (m'.ty b) ∧
    (b = a ∨ ¬m.Present (.expr b) ∧ m'.Present (.expr b) ∧ ∃ name f t, m'.expr b = m'.callOn name f a t ∧
      m'.Applies name [a] (m'.spanOf a) f t)

variable {d : DeclId} {declared : Ty} {a : ExprId}

-- A declaration whose type was left open gets the declared one.
def closed (m : Model) (d : DeclId) (declared : Ty) : Model :=
  if (m.decl d).ty.isUnknown then m.setDeclTy d declared else m

theorem alters_closed : m.Alters (· = .decl d) (m.closed d declared) := by
  rw [closed]
  split
  · exact alters_modifyDecl _
  · exact .refl _ _

theorem exprs_closed : (m.closed d declared).exprs = m.exprs := by
  rw [closed]
  split <;> rfl

theorem decl_closed (hd : m.Present (.decl d)) : (m.closed d declared).decl d =
    { m.decl d with ty := if (m.decl d).ty.isUnknown then declared else (m.decl d).ty } := by
  rw [closed]
  split
  · rw [setDeclTy, decl_modifyDecl, if_pos ⟨rfl, hd⟩]
  · rfl

theorem finishDecl_eq {x : Decl} {errors : Array TypeError} : finishDecl d x { model := m, errors } =
    x.init.toList.forM (initial d (m.typeInst x.ti).ty) { model := m.closed d (m.typeInst x.ti).ty, errors } := by
  rw [finishDecl, checkM_model_bind, closed]
  split <;> rfl

theorem initial_inv (h : Runs (initial d declared a) m ⟨⟩ m₁) : (m.ty a).sub declared ∧
    ∃ b m', m.coerce a declared = .ok (b, m') ∧ m₁ = m'.setInit d (some b) := by
  rw [Runs, initial, checkM_operand_bind] at h
  split at h
  · next hs =>
    obtain ⟨b, m', hc, h⟩ := Runs.coerce_bind h
    cases h
    exact ⟨hs, b, m', hc, rfl⟩
  · rw [checkM_model_bind] at h
    cases h

theorem finishDecl_inv (hp : m.Promotes) (hd : m.Present (.decl d))
    (hfree : ∀ {f}, m.Registered f → d ∉ (m.func f).params)
    (hinit : ∀ a ∈ (m.decl d).init, m.Present (.expr a)) (h : Runs (finishDecl d (m.decl d)) m ⟨⟩ m₁) :
    Initialises d (m.typeInst (m.decl d).ti).ty m m₁ := by
  rw [Runs, finishDecl_eq] at h
  generalize (m.typeInst (m.decl d).ti).ty = declared at h
  have heads : ∀ {m'}, m.Alters (· = .decl d) m' → m.SameHeads m' := fun ha => ha.heads fun hf =>
    ⟨fun h => (by cases h), fun p hp => ⟨fun h => hfree hf (Site.decl.inj h ▸ hp), fun h => by cases h⟩⟩
  have hexpr : ∀ x, (m.closed d declared).expr x = m.expr x := fun x => by rw [expr, exprs_closed, expr]
  have hsize : (m.closed d declared).exprs.size = m.exprs.size := by rw [exprs_closed]
  have hdecl : (m.closed d declared).decl d = _ := decl_closed hd
  have ha : m.Alters (· = .decl d) (m.closed d declared) := alters_closed
  generalize m.closed d declared = m₀ at h hexpr hsize hdecl ha
  cases hi : (m.decl d).init with
  | none =>
    rw [hi] at h
    cases h
    refine ⟨ha, fun x _ => by rw [kind, hexpr, kind], by rw [hdecl], by rw [hdecl], by rw [hdecl], fun b hb => ?_⟩
    rw [hdecl, hi] at hb
    cases hb
  | some a =>
    rw [hi] at h
    have hpres : a.index < m₀.exprs.size := hsize ▸ hinit a hi
    obtain ⟨_, m', h, hend⟩ := Runs.bind_inv (fun _ => .done _) h
    cases hend
    obtain ⟨hs, b, m', hc, rfl⟩ := initial_inv h
    obtain ⟨hwraps, hturned⟩ := coerce_wraps ((heads ha).promotes hp) (Ty.listable_of_sub hs) hc
    have hall : m.Alters (· = .decl d) (m'.setInit d (some b)) := (ha.trans hwraps.alters).trans (alters_modifyDecl _)
    have hself : (m'.setInit d (some b)).decl d = { m₀.decl d with init := some b } := by
      have hsame : m₀.Alters (fun _ => False) m' := hwraps.alters
      rw [setInit, decl_modifyDecl, if_pos ⟨rfl, hsame.present (ha.present hd)⟩, hsame.decl_eq id]
    have hty : m₀.ty a = m.ty a := by rw [ty, hexpr, ty]
    have hspan : (m'.setInit d (some b)).spanOf a = m₀.spanOf a := hwraps.spanOf_eq hpres
    refine ⟨hall, fun x hx => ?_, by rw [hself, hdecl], by rw [hself, hdecl], by rw [hself, hdecl], fun b' hb => ?_⟩
    · have hk : m'.kind x = m₀.kind x := hwraps.plain hx
      exact hk.trans (by rw [kind, hexpr, kind])
    · rw [hself] at hb
      cases hb
      refine ⟨a, hi, hty ▸ hs, hty ▸ hturned.becomes, hturned.place.imp_right fun hplace => ?_⟩
      obtain ⟨hold, hnew⟩ := hplace
      obtain ⟨_, name, f, t, rfl, hx, happ⟩ := hwraps.added hold hnew
      refine ⟨fun h => Nat.not_lt.mpr hold (hsize ▸ h), hnew, name, f, t, ?_, ?_⟩
      · rw [callOn, hspan]
        exact hx
      · rw [hspan]
        refine happ.congr ((heads ha).symm.trans (heads hall)) fun x hx => ?_
        obtain rfl := List.mem_singleton.mp hx
        exact hwraps.ty_eq hpres

end Initialisers

section Declarations

variable {d : DeclId} {declared : Ty}

theorem Initialises.kept (h : Initialises d declared m m₁) {c : DeclId} (hc : (m.decl c).ty.Known) :
    (m₁.decl c).ty = (m.decl c).ty := by
  by_cases hcd : c = d
  · subst hcd
    rw [h.ty, if_neg (Ty.known_iff.mp hc)]
  · rw [h.alters.decl_eq fun h => hcd (Site.decl.inj h)]

theorem Initialises.ongoing (h : Initialises d declared m₁ m₂) (ho : m.Ongoing root m₁) (hr : m.Contains root (.decl d))
    (hb : declared.base ≠ .bot) : m.Ongoing root m₂ := by
  refine ⟨ho.alters.trans (h.alters.mono ?_), fun x hx => ?_, fun c => ?_, fun c => ?_⟩
  · rintro x rfl
    exact hr
  · have hk := h.plain x hx
    rw [hk] at hx ⊢
    exact ho.plain x hx
  · rw [← ho.tis]
    by_cases hcd : c = d
    · exact hcd ▸ h.ti
    · rw [h.alters.decl_eq fun h => hcd (Site.decl.inj h)]
  · by_cases hcd : c = d
    · rw [hcd, h.ty]
      split
      · exact hb
      · exact ho.declared d
    · rw [h.alters.decl_eq fun h => hcd (Site.decl.inj h)]
      exact ho.declared c

theorem Visiting.decl_parts (hv : m.Visiting root n visit) (hm : m.Checkable root) (hr : m.Contains root (.decl d))
    (ho : m.Ongoing root m₁) (hf : m.Fresh (.decl d) m₁) (h₁ : Runs ((m.needs d).forM visit) m₁ ⟨⟩ m₂)
    (h₂ : Runs (Typing.annotations visit (m.decl d).ann) m₂ ⟨⟩ m₃) :
    m.Types root n (m.parts (.decl d)) m₁ m₃ ∧ ∀ a ∈ (m.decl d).ann, (m₃.ty a).isAnn := by
  have hneeds : ∀ c ∈ m.needs d, c ∈ m.parts (.decl d) := fun c hc => List.mem_append_left _ hc
  have hann : ∀ a ∈ (m.decl d).ann, .expr a ∈ m.parts (.decl d) := fun a ha =>
    List.mem_append_right _ (List.mem_map_of_mem ha)
  obtain ⟨hn₁, hn₂, hne⟩ := List.nodup_append'.mp (hm.tree.once hr)
  have hsep : ∀ c ∈ m.needs d, ∀ a ∈ (m.decl d).ann, m.Separate c (.expr a) := fun c hc a ha =>
    hm.tree.separate hr (hneeds c hc) (hann a ha) fun heq => hne hc (heq ▸ List.mem_map_of_mem ha)
  have ht₁ := hv.sites hm hr hneeds hn₁ ho (fun c hc => hf.part (hneeds c hc)) h₁
  have ht₂ := hv.annotations hm hr hann hn₂ ht₁.ongoing (fun a ha => ?_) h₂
  · refine ⟨.append hm (fun c hc => hr.part (hneeds c hc)) ?_ (fun c hc => ?_) ht₁ ht₂.1, ht₂.2⟩
    · exact List.forall_mem_map.mpr fun a ha => hr.part (hann a ha)
    · exact List.forall_mem_map.mpr (hsep c hc)
  · refine (hf.part (hann a ha)).alters hm.tree (hr.part (hann a ha)) ho.alters ht₁.alters ?_
    rintro x hx ⟨c, hc, hcx⟩
    exact hsep c hc a ha x hcx hx

theorem Visiting.decl (hv : m.Visiting root n visit) (hm : m.Checkable root) (hr : m.Contains root (.decl d))
    (ho : m.Ongoing root m₁) (hf : m.Fresh (.decl d) m₁) (h : Runs (Typing.decl .check visit d) m₁ ⟨⟩ m₃) :
    m.Types root (n + 2) [.decl d] m₁ m₃ := by
  rw [decl_eq, Runs, checkM_model_bind] at h
  have hquiet : ∀ as, Upholds Checking.Reported (Typing.annotations visit as) := fun as =>
    upholds_annotations hv.quiet as
  obtain ⟨_, m', h₁, h⟩ := Runs.bind_inv (fun _ => .seq (hquiet _) fun _ => quiet_finishDecl _ _) h
  obtain ⟨_, m₂, h₂, h⟩ := Runs.bind_inv (fun _ => quiet_finishDecl _ _) h
  have hx : m₁.decl d = m.decl d := hf _ .refl
  have hneeds : m₁.needs d = m.needs d := by rw [needs, hx, needs]
  rw [hneeds] at h₁
  rw [hx] at h₂ h
  obtain ⟨ht, hann⟩ := hv.decl_parts hm hr ho hf h₁ h₂
  have hsame : m₂.decl d = m.decl d := ht.same hm hr ho hf
  have hinit : ∀ a ∈ (m.decl d).init, .expr a ∈ m.parts (.decl d) := fun a ha =>
    List.mem_append_left _ (List.mem_cons_of_mem _ (List.mem_map_of_mem (Option.mem_toList.mpr ha)))
  have hti := ht.done (.typeInst (m.decl d).ti) List.mem_cons_self
  have hflat := hti.flat rfl (hm.node hr)
  have hheads := ht.ongoing.heads hm
  have hi : Initialises d (m₂.typeInst (m.decl d).ti).ty m₂ m₃ := by
    rw [← hsame] at h ⊢
    have hpres : m₂.Present (.decl d) := ht.ongoing.alters.present (hm.tree.present hr)
    refine finishDecl_inv (hheads.promotes hm.promotes) hpres ?_ (fun a ha => ?_) h
    · intro f hf hp
      rw [hheads.func_eq] at hp
      exact ((hm.apart (hheads.registered_iff.mp hf)).2 d hp).1 hr
    · rw [hsame] at ha
      exact ((ht.done _ (hinit a ha)).reach .refl).1
  have ho₃ := hi.ongoing ht.ongoing hr hflat.not_bot
  have hdone := ht.parts_done hm hr hi.alters ho₃ hi.kept
  have htiEq : (m₃.decl d).ti = (m.decl d).ti := by rw [hi.ti, hsame]
  have hannEq : (m₃.decl d).ann = (m.decl d).ann := by rw [hi.ann, hsame]
  have hdeclared : m₃.typeInst (m.decl d).ti = m₂.typeInst (m.decl d).ti := hi.alters.typeInst_eq fun h => by cases h
  refine ht.close hi.alters ho₃ hi.kept ⟨.of_uses ⟨?_, fun b hb => ?_⟩ (fun a ha => ?_)
    (ho₃.alters.present (hm.tree.present hr)) (.inl .refl) fun c hc => ?_, ?_, ?_⟩
  · rw [hi.ty]
    split
    · exact hti.checked.of_uses .refl |>.2.2.1
    · next hk => exact Ty.known_iff.mpr hk
  · obtain ⟨a, ha, hs, hb, -⟩ := hi.init b hb
    rw [hsame] at ha
    rw [htiEq, hdeclared]
    exact ⟨hb.sub ((ht.done _ (hinit a ha)).typed rfl).1 hflat.not_bot hflat.flat hs, hb.meets⟩
  · rw [annOf, hannEq] at ha
    have hmem : .expr a ∈ m.parts (.decl d) := List.mem_append_right _ (List.mem_map_of_mem ha)
    have heq : m₃.expr a = m₂.expr a := hi.alters.expr_eq ((ht.done _ hmem).reach .refl).1 fun h => by cases h
    rw [ty, heq]
    exact hann a ha
  · rw [uses_decl, needs, htiEq, hannEq, List.cons_append, List.mem_cons, List.mem_append, List.mem_map] at hc
    rcases hc with rfl | ⟨b, hb, rfl⟩ | hc
    · exact ⟨_, .single List.mem_cons_self, (hdone _ List.mem_cons_self).mono (Nat.le_succ n)⟩
    · obtain ⟨a, ha, -, -, hplace⟩ := hi.init b (Option.mem_toList.mp hb)
      rw [hsame] at ha
      refine ⟨.expr a, .single (hinit a ha), ?_⟩
      obtain rfl | ⟨hnew, hpres, name, f, t, hcall, happ⟩ := hplace
      · exact (hdone _ (hinit b ha)).mono (Nat.le_succ n)
      · refine (hdone _ (hinit a ha)).wrapped hcall happ (fun h => hnew (ht.ongoing.alters.present h)) hpres
    · exact ⟨c, .single (List.mem_append_right _ hc), (hdone c (List.mem_append_right _ hc)).mono (Nat.le_succ n)⟩
  · rintro _ ⟨⟩
  · rintro _ ⟨⟩

end Declarations

end Model
end Parvar
