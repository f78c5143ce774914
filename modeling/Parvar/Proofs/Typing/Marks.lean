import Parvar.Proofs.Typing.Conditional
import Parvar.Proofs.Typing.Arguments

/-!
Types that contain a variable. When an expression is typed its parts have been, and it is marked if one of them is. What
typing does to the parts themselves, to put calls around them and to give types to anonymous ones, is no way around it.
-/

namespace Parvar

open Model Typing

namespace Rules

section Marks

-- What a step takes over or finds is there after all steps.
theorem holds_of_foldlM {α β ε : Type} {f : β → α → Except ε β} {P : β → Prop} {Q : α → Prop} {as : List α} {b b' : β}
    (hf : ∀ {b a b'}, f b a = .ok b' → P b ∨ Q a → P b') (h : as.foldlM f b = .ok b') :
    (P b → P b') ∧ ∀ a ∈ as, Q a → P b' := by
  induction as generalizing b with
  | nil =>
    cases h
    exact ⟨id, by simp⟩
  | cons a as ih =>
    rw [List.foldlM_cons] at h
    obtain ⟨b₁, h₁, h⟩ := except_bind_eq_ok.mp h
    obtain ⟨hkeep, hset⟩ := ih h
    refine ⟨fun hb => hkeep (hf h₁ (.inl hb)), List.forall_mem_cons.mpr ⟨fun ha => hkeep (hf h₁ (.inr ha)), hset⟩⟩

variable {whole : Span} {t u : Ty} {x : Operand} {xs : List Operand}

theorem cv_setMarks (t x : Ty) (h : t.cv ∨ x.cv) : (setMarks t x).cv := by
  refine h.elim (fun h => (cv_markedBy _ _).1 ?_) (cv_markedBy _ _).2
  split
  · simp [Ty.withInst, h]
  · exact h

theorem cv_setElems (h : setElems whole xs = .ok t) : ∀ x ∈ xs, x.ty.cv → t.cv := by
  refine (holds_of_foldlM (P := fun t => t.cv) (Q := fun x => x.ty.cv) (fun {t x u} h hcv => ?_) h).2
  obtain ⟨-, hu, -⟩ := setElem_eq_ok h
  rw [hu]
  exact cv_setMarks t x.ty hcv

theorem cv_arrayElem {i j : Bool} (h : arrayElem whole (t, i) x = .ok (u, j)) (hcv : t.cv ∨ x.ty.cv ∨ x.isAnon) :
    u.cv := by
  simp only [arrayElem] at h
  split at h
  · cases h
  · generalize hv : markedBy (if (x.isAnon || x.ty.isVar) = true then t.withInst .var else t) x.ty = v at h
    have hcv : v.cv := by
      rw [← hv]
      rcases hcv with hcv | hcv | hcv
      · refine (cv_markedBy _ _).1 ?_
        split <;> simp [Ty.withInst, hcv]
      · exact (cv_markedBy _ _).2 hcv
      · refine (cv_markedBy _ _).1 ?_
        simp [hcv, Ty.withInst]
    generalize hw : (if x.ty.isOpt = true then v.withOpt true else v) = w at h
    have hcv : w.cv := by
      rw [← hw]
      split <;> exact hcv
    -- Nothing below changes the mark.
    split at h
    · cases h
      exact hcv
    · split at h
      · split at h
        · cases h
        · cases h
          split <;> exact hcv
      · split at h
        · cases h
        · cases h
          exact hcv

theorem cv_arrayElems {rank : Nat} (h : arrayElems whole rank xs = .ok t) : ∀ x ∈ xs, x.ty.cv ∨ x.isAnon → t.cv := by
  obtain ⟨⟨t, j⟩, h, ht⟩ := except_bind_eq_ok.mp h
  cases ht
  exact (holds_of_foldlM (P := fun t => t.1.cv) (fun h hcv => cv_arrayElem h hcv) h).2

theorem cv_foldl_marked {sources : List Ty} (h : t.cv ∨ ∃ s ∈ sources, s.cv) :
    (sources.foldl (fun t s => markedBy (if s.same .varSetInt then uncertain t else t) s) t).cv := by
  induction sources generalizing t with
  | nil => simpa using h
  | cons s sources ih =>
    refine ih ?_
    obtain ⟨hkeep, hset⟩ := cv_markedBy (if s.same .varSetInt then uncertain t else t) s
    rcases h with h | ⟨s', hs', h⟩
    · refine .inl (hkeep ?_)
      split <;> simp [uncertain, Ty.withInst, Ty.withOpt, h]
    · rcases List.mem_cons.mp hs' with rfl | hs'
      · exact .inl (hset h)
      · exact .inr ⟨s', hs', h⟩

theorem cv_comp {isSet : Bool} {body : Operand} {sources : List Ty} {guard : Option Operand}
    (h : comp isSet body sources guard = .ok t) (hcv : body.ty.cv ∨ (∃ s ∈ sources, s.cv) ∨ ∃ g ∈ guard, g.ty.cv) :
    t.cv := by
  have htail : ∀ v : Ty, v.cv → (do
      if isSet then
        if body.ty.dim ≠ 0 || body.ty.isSet then raise (.setBodyTy body.ty) body.span
        return v.withSet true
      else
        if body.ty.dim ≠ 0 then raise .arrayBody body.span
        return v.withDim 1 : Except TypeError Ty) = .ok t → t.cv := by
    intro v hv h
    split at h
    all_goals
      split at h
      · cases h
      · cases h
        exact hv
  generalize hv : sources.foldl (fun t s => markedBy (if s.same .varSetInt then uncertain t else t) s) body.ty = v
  have hcv : v.cv ∨ ∃ g ∈ guard, g.ty.cv := by
    rw [← or_assoc] at hcv
    exact hcv.imp_left fun h => hv ▸ cv_foldl_marked h
  simp only [comp, hv] at h
  cases guard with
  | none => exact htail v (by simpa using hcv) h
  | some g =>
    have hcv : v.cv ∨ g.ty.cv := by simpa using hcv
    have hmarked : ∀ w : Ty, (v.cv → w.cv) → (markedBy w g.ty).cv := fun w hw =>
      hcv.elim (fun h => (cv_markedBy w g.ty).1 (hw h)) (cv_markedBy w g.ty).2
    simp only at h
    split at h
    · exact htail _ (hmarked _ fun h => by simp [uncertain, Ty.withInst, Ty.withOpt, h]) h
    · split at h
      · exact htail _ (hmarked _ id) h
      · cases h

end Marks

end Rules

namespace Model

section Definitions

variable (m : Model)

-- What stands in a node and is to mark it. The initializer of a name that was not declared to contain a variable is
-- left out.
def inner : Site → List Site
  | .expr e => (m.kind e).parts Generator.uses
  | .decl d => if (m.decl d).ty.cv then (m.decl d).init.toList.map .expr else []
  | .typeInst _ => []

def marked : Site → Bool
  | .expr e => (m.ty e).cv
  | .decl d => (m.decl d).ty.cv
  | .typeInst _ => false

-- The node is marked if something in it is.
def Marks (s : Site) : Prop := ∀ c ∈ m.inner s, m.marked c → m.marked s

-- A node with nothing but `a` in it.
structure Surrounds (s : Site) (a : ExprId) : Prop where
  present : m.Present s
  inner : m.inner s = [.expr a]
  marks : m.Marks s

end Definitions

variable {m m₁ m₂ : Model} {s c : Site} {e a : ExprId}

theorem SameAt.inner_eq (h : m.SameAt m₁ s) : m₁.inner s = m.inner s := by
  cases s
  case expr e => simp [inner, kind, show m₁.expr e = m.expr e from h]
  case decl d => simp [inner, show m₁.decl d = m.decl d from h]
  case typeInst t => rfl

theorem SameAt.marked_eq (h : m.SameAt m₁ s) : m₁.marked s = m.marked s := by
  cases s
  case expr e => simp [marked, ty, show m₁.expr e = m.expr e from h]
  case decl d => simp [marked, show m₁.decl d = m.decl d from h]
  case typeInst t => rfl

theorem SameAt.marks (h : m.SameAt m₁ s) (hc : ∀ c ∈ m.inner s, m.SameAt m₁ c) (hs : m.Marks s) : m₁.Marks s := by
  intro c hmem
  rw [h.inner_eq] at hmem
  rw [(hc c hmem).marked_eq, h.marked_eq]
  exact hs c hmem

-- A declaration that has anything in it is marked.
theorem marks_decl (m : Model) (d : DeclId) : m.Marks (.decl d) := by
  intro c hc _
  rw [inner] at hc
  split at hc
  · next hcv => exact hcv
  · cases hc

theorem inner_of_isAnon (h : (m.kind e).isAnon) : m.inner (.expr e) = [] := by
  rw [inner]
  generalize m.kind e = k at h
  cases k <;> first | rfl | cases h

theorem Surrounds.of_same (h : m.Surrounds s a) (hs : m.SameAt m₁ s) (ha : m.SameAt m₁ (.expr a)) (hp : m₁.Present s) :
    m₁.Surrounds s a where
  present := hp
  inner := hs.inner_eq.trans h.inner
  marks := hs.marks (by simpa [h.inner] using ha) h.marks

theorem Surrounds.named {x : ExprId} (h : m.Surrounds (.expr x) a) : (m.kind x).isAnon = false := by
  by_contra hanon
  have hin := h.inner
  rw [inner_of_isAnon (by simpa using hanon)] at hin
  cases hin

section Reworking

-- From `m` to `m₁` anonymous expressions among those that `S` holds of took types, calls were put around expressions
-- that `W` holds of, and nothing else happened.
structure Reworks (W S : ExprId → Prop) (m m₁ : Model) : Prop where
  tables : m.SameTables m₁
  size_le : m.exprs.size ≤ m₁.exprs.size
  same : ∀ {x}, x.index < m.exprs.size → ¬(S x ∧ (m.kind x).isAnon) → m₁.expr x = m.expr x
  anon : ∀ {x}, x.index < m.exprs.size → (m.kind x).isAnon → (m₁.kind x).isAnon
  added : ∀ {x}, m.exprs.size ≤ x.index → x.index < m₁.exprs.size → ∃ a, W a ∧ m₁.Surrounds (.expr x) a

namespace Reworks

variable {P W W₁ W₂ S S₁ S₂ : ExprId → Prop} {es : List ExprId} {t : Ty} {x : ExprId}

theorem mono (h : m.Reworks W₁ S₁ m₁) (hW : ∀ a, W₁ a → W a) (hS : ∀ a, S₁ a → S a) : m.Reworks W S m₁ :=
  { h with
    same := fun hx hn => h.same hx fun hs => hn (hs.imp_left (hS _))
    added := fun hold hnew => by
      obtain ⟨a, ha, hx⟩ := h.added hold hnew
      exact ⟨a, hW a ha, hx⟩ }

protected theorem refl (m : Model) : m.Reworks W S m where
  tables := .refl m
  size_le := Nat.le_refl _
  same _ _ := rfl
  anon _ h := h
  added hold hnew := absurd hnew (Nat.not_lt.mpr hold)

theorem of_wraps (h : m.Wraps P m₁) (hP : ∀ a, P a → a.index < m.exprs.size) : m.Reworks P (fun _ => False) m₁ where
  tables := h.tables
  size_le := h.grows.size_le
  same hx _ := h.grows.expr_eq hx
  anon hx hanon := h.grows.kind_eq hx ▸ hanon
  added {x} hold hnew := by
    obtain ⟨a, name, f, b, ha, hx, happ⟩ := h.added hold hnew
    have hin : m₁.inner (.expr x) = [.expr a] := by
      rw [inner, kind, hx]
      rfl
    refine ⟨a, ha, hnew, hin, fun c hc hcv => ?_⟩
    obtain rfl := List.mem_singleton.mp (hin ▸ hc)
    obtain ⟨u, -, rfl⟩ := happ.ret
    have hcv : (m.ty a).cv := h.ty_eq (hP a ha) ▸ hcv
    rw [marked, Model.ty, hx]
    simp [callOn, Ty.withCv, hcv]

theorem of_retype (hes : ∀ a ∈ es, (m.kind a).isAnon) : m.Reworks (fun _ => False) (· ∈ es) (m.retype es t) where
  tables := tables_retype
  size_le := size_retype.ge
  same _ hn := by
    rw [expr_retype, if_neg fun hx => hn ⟨hx.1, hes _ hx.1⟩]
  anon _ hanon := by
    rw [kind_retype]
    exact hanon
  added hold hnew := by
    rw [size_retype] at hnew
    exact absurd hnew (Nat.not_lt.mpr hold)

-- What a first step put calls around takes no type in a second one.
theorem trans (h₁ : m.Reworks W₁ S₁ m₁) (h₂ : m₁.Reworks W₂ S₂ m₂) (hd : ∀ a, W₁ a → ¬S₂ a)
    (hp : ∀ a, W₁ a → a.index < m.exprs.size) : m.Reworks (fun a => W₁ a ∨ W₂ a) (fun a => S₁ a ∨ S₂ a) m₂ where
  tables := h₁.tables.trans h₂.tables
  size_le := h₁.size_le.trans h₂.size_le
  same {x} hx hn := by
    have heq := h₁.same hx fun hs => hn ⟨.inl hs.1, hs.2⟩
    refine (h₂.same (Nat.lt_of_lt_of_le hx h₁.size_le) fun hs => hn ⟨.inr hs.1, ?_⟩).trans heq
    rw [kind, ← heq]
    exact hs.2
  anon hx hanon := h₂.anon (Nat.lt_of_lt_of_le hx h₁.size_le) (h₁.anon hx hanon)
  added {x} hold hnew := by
    by_cases hmid : x.index < m₁.exprs.size
    · obtain ⟨a, ha, henc⟩ := h₁.added hold hmid
      have hx : m₂.expr x = m₁.expr x := h₂.same hmid fun hs => by simp [henc.named] at hs
      have ha' : m₂.expr a = m₁.expr a := h₂.same (Nat.lt_of_lt_of_le (hp a ha) h₁.size_le) fun hs => hd a ha hs.1
      exact ⟨a, .inl ha, henc.of_same hx ha' hnew⟩
    · obtain ⟨a, ha, henc⟩ := h₂.added (Nat.le_of_not_lt hmid) hnew
      exact ⟨a, .inr ha, henc⟩

theorem typeVar (h : m.Reworks W S m₁) {v : String} : m₁.kind x = .typeVar v ↔ m.kind x = .typeVar v := by
  have hnot : ∀ {m : Model}, (m.kind x).isAnon → m.kind x ≠ .typeVar v := fun hanon h => by
    rw [h] at hanon
    cases hanon
  by_cases hold : x.index < m.exprs.size
  · by_cases hanon : (m.kind x).isAnon
    · exact iff_of_false (hnot (h.anon hold hanon)) (hnot hanon)
    · rw [kind, h.same hold fun hs => hanon hs.2, kind]
  · have hk : m.kind x ≠ .typeVar v := by
      rw [kind, expr_of_le (Nat.le_of_not_lt hold)]
      exact fun h => by cases h
    by_cases hnew : x.index < m₁.exprs.size
    · obtain ⟨a, -, henc⟩ := h.added (Nat.le_of_not_lt hold) hnew
      refine iff_of_false (fun hx => ?_) hk
      have hin := henc.inner
      rw [inner, hx] at hin
      cases hin
    · rw [kind, expr_of_le (Nat.le_of_not_lt hnew), kind, expr_of_le (Nat.le_of_not_lt hold)]

theorem heads (h : m.Reworks W S m₁) : m.SameHeads m₁ := .of_exprs h.tables fun _ _ => h.typeVar

end Reworks
end Reworking

section Closing

-- What stands in an expression has been typed, and is there once.
structure Gathered (m : Model) (e : ExprId) : Prop where
  promotes : m.Promotes
  present : e.index < m.exprs.size
  part : ∀ {c}, c ∈ m.inner (.expr e) → m.Present c ∧ c ≠ .expr e
  once : (m.inner (.expr e)).Nodup

-- From `m` to `m'` an expression was typed, and now is marked by what stands in it: by what stood in it before, of
-- which only the types of anonymous expressions have changed, and by new calls around that.
structure Closes (m : Model) (e : ExprId) (m' : Model) : Prop where
  alters : m.Alters (fun s => s = .expr e ∨ ∃ a, s = .expr a ∧ s ∈ m.inner (.expr e) ∧ (m.kind a).isAnon) m'
  anon : ∀ a, .expr a ∈ m.inner (.expr e) → (m.kind a).isAnon → (m'.kind a).isAnon
  ann : (m'.expr e).ann = (m.expr e).ann
  parts : ∀ c ∈ m'.inner (.expr e), c ∈ m.inner (.expr e) ∨
    ¬m.Present c ∧ ∃ a, .expr a ∈ m.inner (.expr e) ∧ m'.Surrounds c a
  marks : m'.Marks (.expr e)

variable {m' : Model} {k : ExprKind} {t : Ty} {errors : Array TypeError} {c' : Checking}
  {W W₁ W₂ S S₁ S₂ : ExprId → Prop}

theorem Reworks.alters (h : m.Reworks W S m₁) (he : e.index < m.exprs.size)
    (hk : k = m.kind e ∨ k.isMade ∧ (m.kind e).isMade) :
    m.Alters (fun s => s = .expr e ∨ ∃ a, s = .expr a ∧ S a ∧ (m.kind a).isAnon) (m₁.setNode e k t) := by
  refine Alters.setNode (.of_exprs h.tables h.size_le (fun hx hn => ?_) fun _ _ => h.typeVar) he (.inl rfl) hk
  exact h.same hx fun hs => hn (.inr ⟨_, rfl, hs⟩)

theorem Closes.of_reworks (hm : m.Gathered e) (h : m.Reworks W S m₁) (hW : ∀ a, W a → .expr a ∈ m.inner (.expr e))
    (hS : ∀ a, S a → .expr a ∈ m.inner (.expr e)) (hk : k = m.kind e ∨ k.isMade ∧ (m.kind e).isMade)
    (hparts : ∀ c ∈ k.parts Generator.uses, c ∈ m.inner (.expr e) ∨
      ∃ a, c = .expr a ∧ m.exprs.size ≤ a.index ∧ a.index < m₁.exprs.size)
    (hmarks : ∀ c ∈ k.parts Generator.uses, m₁.marked c → t.cv) : m.Closes e (m₁.setNode e k t) := by
  have he : e.index < m₁.exprs.size := Nat.lt_of_lt_of_le hm.present h.size_le
  have hin : (m₁.setNode e k t).inner (.expr e) = k.parts Generator.uses := by rw [inner, kind_setNode he]
  have hne : ∀ {x}, m.exprs.size ≤ x.index → x ≠ e := by
    rintro x hx rfl
    exact Nat.not_lt.mpr hx hm.present
  have hpart : ∀ {a}, .expr a ∈ m.inner (.expr e) → a.index < m.exprs.size ∧ a ≠ e := fun ha =>
    ⟨(hm.part ha).1, fun h => (hm.part ha).2 (h ▸ rfl)⟩
  constructor
  case alters =>
    refine (h.alters hm.present hk).mono fun s hs => hs.imp_right ?_
    rintro ⟨a, rfl, ha, hanon⟩
    exact ⟨a, rfl, hS a ha, hanon⟩
  case anon =>
    intro a ha hanon
    obtain ⟨hlt, hae⟩ := hpart ha
    rw [kind_setNode_ne hae]
    exact h.anon hlt hanon
  case ann =>
    rw [expr_setNode_self he]
    by_cases hanon : S e ∧ (m.kind e).isAnon
    · exact absurd rfl (hpart (hS e hanon.1)).2
    · rw [h.same hm.present hanon]
  case parts =>
    rw [hin]
    intro c hc
    refine (hparts c hc).imp_right ?_
    rintro ⟨x, rfl, hold, hnew⟩
    obtain ⟨a, ha, henc⟩ := h.added hold hnew
    refine ⟨Nat.not_lt.mpr hold, a, hW a ha, henc.of_same (expr_setNode_ne (hne hold)) ?_ ?_⟩
    · exact expr_setNode_ne (hpart (hW a ha)).2
    · simpa [Present, setNode, setTy, setKind, modifyExpr] using hnew
  case marks =>
    intro c hc hcv
    rw [marked, ty_setNode he]
    rw [hin] at hc
    refine hmarks c hc ?_
    have hce : c ≠ .expr e := by
      rcases hparts c hc with hc | ⟨x, rfl, hold, -⟩
      · exact (hm.part hc).2
      · exact fun h => hne hold (Site.expr.inj h)
    cases c with
    | expr x =>
      rw [marked, ty_setNode_ne fun h => hce (congrArg _ h)] at hcv
      exact hcv
    | decl d => exact hcv
    | typeInst t => cases hcv

-- The same where all that stands in the expression are expressions.
theorem Closes.of_exprs {as as' : List ExprId} (hm : m.Gathered e) (hk : m.inner (.expr e) = as.map .expr)
    (hk' : k.parts Generator.uses = as'.map .expr) (hmade : k.isMade) (hmade' : (m.kind e).isMade)
    (h : m.Reworks (· ∈ as) (· ∈ as) m₁)
    (has : ∀ a ∈ as', (a ∈ as ∨ m.exprs.size ≤ a.index ∧ a.index < m₁.exprs.size) ∧ ((m₁.ty a).cv → t.cv)) :
    m.Closes e (m₁.setNode e k t) := by
  have hmem : ∀ a, a ∈ as → .expr a ∈ m.inner (.expr e) := fun a ha => hk ▸ List.mem_map_of_mem ha
  refine .of_reworks hm h hmem hmem (.inr ⟨hmade, hmade'⟩) ?_ ?_
  · rw [hk', hk]
    refine List.forall_mem_map.mpr fun a ha => (has a ha).1.imp List.mem_map_of_mem ?_
    exact fun hnew => ⟨a, rfl, hnew⟩
  · rw [hk']
    exact List.forall_mem_map.mpr fun a ha => (has a ha).2

-- The same where nothing but the type of the expression changes.
theorem Closes.of_setTy (hm : m.Gathered e) (hmarks : ∀ c ∈ m.inner (.expr e), m.marked c → t.cv) :
    m.Closes e (m.setTy e t) := by
  rw [← setNode_kind]
  have hnone : m.Reworks (fun _ => False) (fun _ => False) m := .refl m
  exact .of_reworks hm hnone (fun _ h => h.elim) (fun _ h => h.elim) (.inl rfl) (fun c hc => .inl hc) hmarks

theorem Gathered.exprs {as : List ExprId} (hm : m.Gathered e) (hk : m.inner (.expr e) = as.map .expr) :
    (∀ a ∈ as, a.index < m.exprs.size ∧ a ≠ e) ∧ as.Nodup := by
  refine ⟨fun a ha => ?_, (hk ▸ hm.once).of_map _⟩
  obtain ⟨hp, hne⟩ := hm.part (hk ▸ List.mem_map_of_mem ha)
  exact ⟨hp, fun h => hne (h ▸ rfl)⟩

-- The same where these were turned.
theorem Closes.of_turned {m₀ : Model} {as as' : List ExprId} (hm : m.Gathered e) (hk : m.inner (.expr e) = as.map .expr)
    (hk' : k.parts Generator.uses = as'.map .expr) (hmade : k.isMade) (hmade' : (m.kind e).isMade)
    (h : m.Reworks (· ∈ as) (· ∈ as) m₁) (hsize : m₀.exprs.size = m.exprs.size)
    (has : ∀ a' ∈ as', ∃ a ∈ as, (∃ u, m₀.Turned a u m₁ a') ∧ ((m₀.ty a).cv → t.cv)) :
    m.Closes e (m₁.setNode e k t) := by
  refine .of_exprs hm hk hk' hmade hmade' h fun a' ha' => ?_
  obtain ⟨a, ha, ⟨u, hturned⟩, hcv⟩ := has a' ha'
  obtain ⟨-, -, hmark⟩ := hturned.becomes.marks
  have hplace := hturned.place
  rw [hsize] at hplace
  refine ⟨hplace.imp_left fun (heq : a' = a) => heq ▸ ha, fun h => hcv ?_⟩
  rwa [hmark] at h

theorem closes_setLit {es : List ExprId} (hm : m.Gathered e) (hk : m.kind e = .setLit es)
    (h : setLit e es { model := m, errors } = .ok ⟨⟩ c') : m.Closes e c'.model := by
  have hin : m.inner (.expr e) = es.map .expr := by rw [inner, hk]; rfl
  obtain ⟨hes, -⟩ := hm.exprs hin
  rw [setLit, checkM_model_bind] at h
  obtain ⟨t, _, hx, h⟩ := bind_eq_ok.mp h
  obtain ⟨ht, rfl⟩ := ofExcept_eq_ok.mp hx
  have hcv : ∀ a ∈ es, (m.ty a).cv → t.cv := fun a ha => Rules.cv_setElems ht _ (List.mem_map_of_mem ha)
  split at h
  · cases h
    refine .of_setTy hm ?_
    rw [hin]
    exact List.forall_mem_map.mpr hcv
  · obtain ⟨u, _, hx, h⟩ := bind_eq_ok.mp h
    obtain ⟨hu, rfl⟩ := ofExcept_eq_ok.mp hx
    obtain ⟨hut, -, -⟩ := Rules.setLit_eq_ok hu
    have hdim : u.dim = 0 := by
      rw [hut]
      exact Rules.dim_setElems (t := t) ht
    obtain ⟨es', _, hx, h⟩ := bind_eq_ok.mp h
    obtain ⟨m₁, rfl, hw, hall⟩ :=
      coerceEach_wraps hm.promotes (fun a ha => ⟨(hes a ha).1, fun _ hd => absurd hdim hd⟩) hx
    rw [List.map_id'] at hw
    rw [setKind_setTy_eq_ok h]
    have hr := Reworks.of_wraps hw fun a ha => (hes a ha).1
    refine .of_turned hm hin rfl rfl (hk ▸ rfl) (hr.mono (fun _ h => h) fun _ h => h.elim) rfl fun a' ha' => ?_
    obtain ⟨a, ha, hturned⟩ := forall₂_exists hall.flip a' ha'
    refine ⟨a, ha, ⟨u, hturned⟩, ?_⟩
    rw [hut]
    exact hcv a ha

theorem closes_arrayLit {es : List ExprId} {dims : List (Int64 × Int64)} (hm : m.Gathered e)
    (hk : m.kind e = .arrayLit es dims) (h : arrayLit e es dims { model := m, errors } = .ok ⟨⟩ c') :
    m.Closes e c'.model := by
  have hin : m.inner (.expr e) = es.map .expr := by rw [inner, hk]; rfl
  obtain ⟨hes, -⟩ := hm.exprs hin
  rw [arrayLit, checkM_model_bind] at h
  obtain ⟨t, _, hx, h⟩ := bind_eq_ok.mp h
  obtain ⟨ht, rfl⟩ := ofExcept_eq_ok.mp hx
  have hcv : ∀ a ∈ es, (m.ty a).cv ∨ (m.kind a).isAnon → t.cv := fun a ha =>
    Rules.cv_arrayElems ht _ (List.mem_map_of_mem ha)
  split at h
  · split at h
    · cases h
    · cases h
      refine .of_setTy hm ?_
      rw [hin]
      exact List.forall_mem_map.mpr fun a ha h => hcv a ha (.inl h)
  · obtain ⟨u, _, hx, h⟩ := bind_eq_ok.mp h
    obtain ⟨hu, rfl⟩ := ofExcept_eq_ok.mp hx
    have hcv : ∀ a ∈ es, (m.ty a).cv ∨ (m.kind a).isAnon → u.cv := by
      obtain rfl | ⟨-, -, rfl⟩ := Rules.arrayLit_eq_ok hu
      · exact hcv
      · exact hcv
    let anons := ((es.map m.operand).filter (·.isAnon)).map (·.id)
    have hanons : ∀ a ∈ anons, a ∈ es ∧ (m.kind a).isAnon := by
      simp only [anons, List.mem_map, List.mem_filter]
      rintro a ⟨x, ⟨⟨b, hb, rfl⟩, hanon⟩, rfl⟩
      exact ⟨hb, hanon⟩
    have hset : (((es.map m.operand).filter (·.isAnon)).forM fun x => CheckM.setTy x.id u.elem) =
        anons.forM fun a => CheckM.setTy a u.elem := by
      rw [List.forM_eq_forM, List.forM_eq_forM, List.forM_map]
    rw [hset, bind_of_ok (forM_setTy errors)] at h
    obtain ⟨es', _, hx, h⟩ := bind_eq_ok.mp h
    have hsize : (m.retype anons u.elem).exprs.size = m.exprs.size := size_retype
    obtain ⟨m₁, rfl, hw, hall⟩ := coerceEach_wraps (sameHeads_retype.promotes hm.promotes)
      (fun a ha => ⟨hsize ▸ (hes a ha).1, fun _ hd => absurd rfl hd⟩) hx
    rw [List.map_id'] at hw
    rw [setKind_setTy_eq_ok h]
    have hr := (Reworks.of_retype (t := u.elem) fun a ha => (hanons a ha).2).trans
      (Reworks.of_wraps hw fun a ha => hsize ▸ (hes a ha).1) (fun _ h => h.elim) fun _ h => h.elim
    have hr : m.Reworks (· ∈ es) (· ∈ es) m₁ :=
      hr.mono (fun _ h => h.resolve_left id) fun _ h => (hanons _ (h.resolve_right id)).1
    refine .of_turned hm hin rfl rfl (hk ▸ rfl) hr hsize fun a' ha' => ?_
    obtain ⟨a, ha, hturned⟩ := forall₂_exists hall.flip a' ha'
    refine ⟨a, ha, ⟨u.elem, hturned⟩, fun h => hcv a ha ?_⟩
    by_cases hanon : a ∈ anons
    · exact .inr (hanons a hanon).2
    · rw [ty_retype hanon] at h
      exact .inl h

section Access

theorem cv_indexed {t i : Ty} (h : t.cv ∨ i.cv) : (indexed t i).cv := by
  rw [indexed]
  refine h.elim (fun h => (Rules.cv_markedBy _ _).1 ?_) (Rules.cv_markedBy _ _).2
  split <;> split <;> simp [Ty.withInst, Ty.withOpt, h]

variable {i : ExprId} {c : Checking}

-- An index that has a type.
theorem index_of_named {r : ExprId × Ty} (hp : m.Promotes)
    (h : (do
      let x ← CheckM.operand i
      if x.ty.isSetTy || (x.ty.base ≠ .int && x.ty.base ≠ .bool) || x.ty.dim ≠ 0 then
        CheckM.fail (.indexTy x.ty) x.span
      let e ← CheckM.coerce i .varInt
      return (e, indexed t x.ty) : CheckM (ExprId × Ty)) { model := m, errors } = .ok r c) :
    ∃ m₁, c = { model := m₁, errors } ∧ m.Wraps (· = i) m₁ ∧ m.Turned i .varInt m₁ r.1 ∧
      (t.cv ∨ (m₁.ty r.1).cv → r.2.cv) := by
  rw [checkM_operand_bind] at h
  split at h
  · cases h
  · obtain ⟨i', _, hx, h⟩ := bind_eq_ok.mp h
    obtain ⟨m₁, hc, rfl⟩ := coerce_eq_ok hx
    obtain ⟨rfl, rfl⟩ := pure_eq_ok.mp h
    obtain ⟨hw, ht⟩ := coerce_wraps hp (fun _ hd => absurd rfl hd) hc
    obtain ⟨-, -, hmark⟩ := ht.becomes.marks
    exact ⟨m₁, rfl, hw, ht, fun h => cv_indexed (h.imp_right fun h => hmark ▸ h)⟩

theorem index_reworks {r : ExprId × Ty} (hp : m.Promotes) (hi : i.index < m.exprs.size)
    (h : index t i { model := m, errors } = .ok r c) :
    ∃ m₁, c = { model := m₁, errors } ∧ m.Reworks (· = i) (· = i) m₁ ∧
      (r.1 = i ∨ m.exprs.size ≤ r.1.index ∧ r.1.index < m₁.exprs.size) ∧ (t.cv ∨ (m₁.ty r.1).cv → r.2.cv) := by
  rw [index, checkM_operand_bind] at h
  split at h
  · next hanon =>
    have hanon : (m.kind i).isAnon := hanon
    have hsize : (m.retype [i] .varInt).exprs.size = m.exprs.size := size_retype
    obtain ⟨m₁, rfl, hw, ht, hcv⟩ := index_of_named (m := m.retype [i] .varInt) (sameHeads_retype.promotes hp) h
    have hr := (Reworks.of_retype (t := .varInt) fun a ha => List.mem_singleton.mp ha ▸ hanon).trans
      (Reworks.of_wraps hw fun a (ha : a = i) => hsize ▸ ha ▸ hi) (fun _ h => h.elim) fun _ h => h.elim
    have hr : m.Reworks (· = i) (· = i) m₁ :=
      hr.mono (fun _ h => h.resolve_left id) fun _ h => List.mem_singleton.mp (h.resolve_right id)
    exact ⟨m₁, rfl, hr, hsize ▸ ht.place, hcv⟩
  · obtain ⟨m₁, rfl, hw, ht, hcv⟩ := index_of_named hp h
    have hr := Reworks.of_wraps hw fun a (ha : a = i) => ha ▸ hi
    exact ⟨m₁, rfl, hr.mono (fun _ h => h) fun _ h => h.elim, ht.place, hcv⟩

-- What stands in the place of an expression stays as it is when others are reworked.
theorem Reworks.stays {a' : ExprId} {is : List ExprId} (h₁ : m.Reworks W₁ S₁ m₁) (h₂ : m₁.Reworks W₂ (· ∈ is) m₂)
    (ha : a.index < m.exprs.size) (hplace : a' = a ∨ m.exprs.size ≤ a'.index ∧ a'.index < m₁.exprs.size) (hn : a ∉ is)
    (his : ∀ i ∈ is, i.index < m.exprs.size) :
    m₂.expr a' = m₁.expr a' ∧ (a' = a ∨ m.exprs.size ≤ a'.index ∧ a'.index < m₂.exprs.size) := by
  rcases hplace with rfl | ⟨hold, hnew⟩
  · exact ⟨h₂.same (Nat.lt_of_lt_of_le ha h₁.size_le) fun hs => hn hs.1, .inl rfl⟩
  · refine ⟨h₂.same hnew fun hs => ?_, .inr ⟨hold, Nat.lt_of_lt_of_le hnew h₂.size_le⟩⟩
    exact Nat.not_lt.mpr hold (his _ hs.1)

-- The indices take their types one after another, each while those before it stay as they are.
theorem indices_rework {is : List ExprId} {r r' : List ExprId × Ty} (hp : m.Promotes)
    (his : ∀ i ∈ is, i.index < m.exprs.size) (hn : is.Nodup)
    (h : (is.foldlM (fun r i => do
      let (i, t) ← index r.2 i
      return (r.1 ++ [i], t)) r : CheckM (List ExprId × Ty)) { model := m, errors } = .ok r' c) :
    ∃ m₁ is', c = { model := m₁, errors } ∧ m.Reworks (· ∈ is) (· ∈ is) m₁ ∧ r'.1 = r.1 ++ is' ∧ (r.2.cv → r'.2.cv) ∧
      ∀ i ∈ is', (i ∈ is ∨ m.exprs.size ≤ i.index ∧ i.index < m₁.exprs.size) ∧ ((m₁.ty i).cv → r'.2.cv) := by
  induction is generalizing m r with
  | nil =>
    obtain ⟨rfl, rfl⟩ := pure_eq_ok.mp h
    exact ⟨m, [], rfl, .refl m, by simp, id, by simp⟩
  | cons i is ih =>
    obtain ⟨hi, hrest⟩ := List.forall_mem_cons.mp his
    obtain ⟨hni, hn⟩ := List.nodup_cons.mp hn
    rw [List.foldlM_cons] at h
    obtain ⟨r₁, c₁, h₁, h⟩ := bind_eq_ok.mp h
    obtain ⟨⟨i', t⟩, c₂, hx, h₁⟩ := bind_eq_ok.mp h₁
    obtain ⟨rfl, rfl⟩ := pure_eq_ok.mp h₁
    obtain ⟨m₁, rfl, hr₁, hplace, hcv⟩ := index_reworks hp hi hx
    obtain ⟨m₂, is', rfl, hr₂, hout, hkeep, hall⟩ :=
      ih (hr₁.heads.promotes hp) (fun j hj => Nat.lt_of_lt_of_le (hrest j hj) hr₁.size_le) hn h
    have hr := hr₁.trans hr₂ (fun a ha hmem => hni (ha ▸ hmem)) fun a ha => ha ▸ hi
    have hr : m.Reworks (· ∈ i :: is) (· ∈ i :: is) m₂ :=
      hr.mono (fun _ => List.mem_cons.mpr) fun _ => List.mem_cons.mpr
    obtain ⟨hfirst, hplace⟩ := hr₁.stays hr₂ hi hplace hni hrest
    refine ⟨m₂, i' :: is', rfl, hr, by simp [hout], fun h => hkeep (hcv (.inl h)), ?_⟩
    refine List.forall_mem_cons.mpr ⟨⟨?_, fun h => hkeep (hcv (.inr ?_))⟩, fun j hj => ?_⟩
    · exact hplace.imp_left fun h => List.mem_cons.mpr (.inl h)
    · rwa [Model.ty, hfirst] at h
    · obtain ⟨hplace, hcv⟩ := hall j hj
      exact ⟨hplace.imp (List.mem_cons_of_mem _) (And.imp_left hr₁.size_le.trans), hcv⟩

theorem accessed_reworks {array array' : ExprId} (hp : m.Promotes) (ha : array.index < m.exprs.size)
    (h : accessed array { model := m, errors } = .ok array' c) :
    ∃ m₁, c = { model := m₁, errors } ∧ m.Reworks (· = array) (fun _ => False) m₁ ∧
      (array' = array ∨ m.exprs.size ≤ array'.index ∧ array'.index < m₁.exprs.size) := by
  rw [accessed, checkM_operand_bind] at h
  split at h
  · split at h
    · cases h
    · next hset =>
      obtain ⟨m₁, hc, rfl⟩ := coerce_eq_ok h
      have hset : (m.operand array).ty.isSet := by simpa using hset
      obtain ⟨hw, ht⟩ := coerce_wraps hp (fun _ _ _ => hset) hc
      exact ⟨m₁, rfl, .of_wraps hw fun a (h : a = array) => h ▸ ha, ht.place⟩
  · obtain ⟨rfl, rfl⟩ := pure_eq_ok.mp h
    exact ⟨m, rfl, .refl m, .inl rfl⟩

theorem closes_access {array : ExprId} {indices : List ExprId} (hm : m.Gathered e)
    (hk : m.kind e = .access array indices) (h : access e array indices { model := m, errors } = .ok ⟨⟩ c') :
    m.Closes e c'.model := by
  have hin : m.inner (.expr e) = (array :: indices).map .expr := by rw [inner, hk]; rfl
  obtain ⟨hes, hn⟩ := hm.exprs hin
  obtain ⟨⟨harray, -⟩, his⟩ := List.forall_mem_cons.mp hes
  obtain ⟨hna, hn⟩ := List.nodup_cons.mp hn
  rw [access] at h
  obtain ⟨array', _, hx, h⟩ := bind_eq_ok.mp h
  obtain ⟨m₁, rfl, hr₁, hplace⟩ := accessed_reworks hm.promotes harray hx
  rw [checkM_operand_bind] at h
  split at h
  · cases h
  · obtain ⟨⟨indices', t⟩, _, hx, h⟩ := bind_eq_ok.mp h
    obtain ⟨m₂, is', rfl, hr₂, hout, hkeep, hall⟩ := indices_rework (hr₁.heads.promotes hm.promotes)
      (fun i hi => Nat.lt_of_lt_of_le (his i hi).1 hr₁.size_le) hn hx
    obtain rfl : indices' = is' := hout
    rw [setKind_setTy_eq_ok h]
    have hr := hr₁.trans hr₂ (fun a ha hmem => hna (ha ▸ hmem)) fun a ha => ha ▸ harray
    have hr : m.Reworks (· ∈ array :: indices) (· ∈ array :: indices) m₂ :=
      hr.mono (fun _ => List.mem_cons.mpr) fun _ h => List.mem_cons_of_mem _ (h.resolve_left id)
    obtain ⟨hfirst, hplace⟩ := hr₁.stays hr₂ harray hplace hna fun i hi => (his i hi).1
    have hparts : (ExprKind.access array' indices').parts Generator.uses = (array' :: indices').map .expr := rfl
    refine .of_exprs hm hin hparts rfl (hk ▸ rfl) hr ?_
    refine List.forall_mem_cons.mpr ⟨⟨?_, fun h => hkeep ?_⟩, fun j hj => ?_⟩
    · exact hplace.imp_left fun h => List.mem_cons.mpr (.inl h)
    · rw [Model.ty, hfirst] at h
      exact h
    · obtain ⟨hplace, hcv⟩ := hall j hj
      exact ⟨hplace.imp (List.mem_cons_of_mem _) (And.imp_left hr₁.size_le.trans), hcv⟩

end Access

section Conditionals

variable {branches branches' : List (ExprId × ExprId)} {otherwise otherwise' : ExprId} {r : Rules.Conditional}

-- All that stands in a conditional.
def arms (branches : List (ExprId × ExprId)) (otherwise : ExprId) : List ExprId :=
  branches.flatMap (fun b => [b.1, b.2]) ++ [otherwise]

theorem parts_arms : (ExprKind.ite branches otherwise).parts Generator.uses = (arms branches otherwise).map .expr := by
  simp [ExprKind.parts, arms, List.map_flatMap]

theorem mem_arms : a ∈ arms branches otherwise ↔ (∃ b ∈ branches, a = b.1) ∨ a ∈ choices branches otherwise := by
  simp only [arms, choices, List.mem_append, List.mem_flatMap, List.mem_cons, List.not_mem_nil, or_false, List.mem_map]
  grind

-- A part that is marked, or is yet to be given a type, marks the conditional.
theorem Chooses.cv_result (h : m.Chooses branches otherwise r m₁ branches' otherwise')
    (ha : a ∈ arms branches otherwise) (hcv : ((m.retype r.anons (r.ty.withInst .var)).ty a).cv) : r.result.cv := by
  have hcovers := covers_choices h.rule
  obtain ⟨-, -, -, hkeep, hvar, -⟩ := r.result_fields
  have hfree : r.allPar = false → r.result.cv := fun h => r.result.cv_of_var (by simpa [Ty.isVar] using hvar (.inr h))
  by_cases hanon : a ∈ r.anons
  · exact hfree (hcovers.anons a hanon).1
  · rw [ty_retype hanon] at hcv
    rcases mem_arms.mp ha with ⟨b, hb, rfl⟩ | ha
    · exact hkeep ((hcovers.conditions _ (List.mem_map_of_mem (List.mem_map_of_mem hb))).marks hcv)
    · exact ((hcovers.values _ (List.mem_map_of_mem ha)).marks hcv).elim hkeep hfree

theorem Chooses.reworks (h : m.Chooses branches otherwise r m₁ branches' otherwise')
    (hp : ∀ a ∈ arms branches otherwise, a.index < m.exprs.size) :
    m.Reworks (· ∈ arms branches otherwise) (· ∈ arms branches otherwise) m₁ := by
  have hanons : ∀ a ∈ r.anons, a ∈ choices branches otherwise ∧ (m.kind a).isAnon := by
    intro a ha
    obtain ⟨-, y, hy, hanon, hid⟩ := (covers_choices h.rule).anons a ha
    obtain ⟨x, hx, rfl⟩ := List.mem_map.mp hy
    obtain rfl : x = a := hid
    exact ⟨hx, hanon⟩
  have hsize : (m.retype r.anons (r.ty.withInst .var)).exprs.size = m.exprs.size := size_retype
  have hr := (Reworks.of_retype (t := r.ty.withInst .var) fun a ha => (hanons a ha).2).trans
    (Reworks.of_wraps h.wraps fun a ha => hsize ▸ hp a (mem_arms.mpr (.inr ha))) (fun _ h => h.elim) fun _ h => h.elim
  exact hr.mono (fun _ h => mem_arms.mpr (.inr (h.resolve_left id)))
    fun _ h => mem_arms.mpr (.inr (hanons _ (h.resolve_right id)).1)

theorem closes_ite (hm : m.Gathered e) (hk : m.kind e = .ite branches otherwise)
    (h : ite e branches otherwise { model := m, errors } = .ok ⟨⟩ c') : m.Closes e c'.model := by
  have hin : m.inner (.expr e) = (arms branches otherwise).map .expr := by rw [inner, hk, parts_arms]
  obtain ⟨hes, -⟩ := hm.exprs hin
  obtain ⟨r, m₁, branches', otherwise', hchooses, rfl⟩ :=
    ite_eq_ok hm.promotes (fun a ha => (hes a (mem_arms.mpr (.inr ha))).1) h
  have hsize : (m.retype r.anons (r.ty.withInst .var)).exprs.size = m.exprs.size := size_retype
  have hr := hchooses.reworks fun a ha => (hes a ha).1
  refine .of_exprs hm hin parts_arms rfl (hk ▸ rfl) hr fun a' ha' => ?_
  have hturned : ∀ {a}, a ∈ choices branches otherwise → (m.retype r.anons (r.ty.withInst .var)).Turned a r.ty m₁ a' →
      (a' ∈ arms branches otherwise ∨ m.exprs.size ≤ a'.index ∧ a'.index < m₁.exprs.size) ∧
        ((m₁.ty a').cv → r.result.cv) := by
    intro a ha ht
    have hplace := ht.place
    rw [hsize] at hplace
    have hmem := mem_arms.mpr (.inr ha)
    refine ⟨hplace.imp_left fun (heq : a' = a) => heq ▸ hmem, fun hcv => hchooses.cv_result hmem ?_⟩
    rwa [ht.becomes.marks.2.2] at hcv
  rcases mem_arms.mp ha' with ⟨b', hb', rfl⟩ | ha'
  · -- Conditions stay as they are.
    obtain ⟨b, hb, hfst, -⟩ := forall₂_exists hchooses.turned.flip b' hb'
    have hmem : b'.1 ∈ arms branches otherwise := mem_arms.mpr (.inl ⟨b, hb, hfst⟩)
    refine ⟨.inl hmem, fun hcv => hchooses.cv_result hmem ?_⟩
    rwa [hchooses.wraps.ty_eq (hsize ▸ (hes _ hmem).1)] at hcv
  · rcases List.mem_append.mp ha' with ha' | ha'
    · obtain ⟨b', hb', rfl⟩ := List.mem_map.mp ha'
      obtain ⟨b, hb, -, ht, -⟩ := forall₂_exists hchooses.turned.flip b' hb'
      exact hturned (List.mem_append_left _ (List.mem_map_of_mem hb)) ht
    · obtain rfl := List.mem_singleton.mp ha'
      exact hturned (List.mem_append_right _ (List.mem_singleton_self _)) hchooses.last.1

end Conditionals

section Calls

variable {name : String} {args : List ExprId} {fn : Option FuncId}

theorem parts_application (h : k.application? = some (name, args, fn)) :
    k.parts Generator.uses = args.map .expr ∧ k.isMade := by
  cases k <;> cases h <;> exact ⟨rfl, rfl⟩

theorem closes_application (hm : m.Gathered e) (hk : m.kind e = k) (happ : k.application? = some (name, args, fn))
    (h : application e k { model := m, errors } = .ok ⟨⟩ c') : m.Closes e c'.model := by
  obtain ⟨hparts, hmade⟩ := parts_application happ
  have hin : m.inner (.expr e) = args.map .expr := by rw [inner, hk, hparts]
  obtain ⟨hes, -⟩ := hm.exprs hin
  have hready : m.Ready e args :=
    ⟨hm.promotes, List.forall_mem_cons.mpr ⟨hm.present, fun a ha => (hes a ha).1⟩, fun h => (hes e h).2 rfl⟩
  obtain ⟨f, m₁, args', k', fn', t, happlied, hk', -, hcv, hm'⟩ := application_marks hready happ h
  obtain ⟨hparts', hmade'⟩ := parts_application hk'
  rw [hm']
  have hr := Reworks.of_wraps happlied.wraps fun a ha => (hes a ha).1
  refine .of_exprs hm hin hparts' hmade' (hk ▸ hmade) (hr.mono (fun _ h => h) fun _ h => h.elim) fun a' ha' => ?_
  obtain ⟨q, hq, hturned⟩ := forall₂_exists happlied.turned.flip a' ha'
  exact ⟨hturned.place.imp_left fun (heq : a' = q.1) => heq ▸ (List.of_mem_zip hq).1, hcv a' ha'⟩

end Calls

theorem closes_comp {c : Comprehension} (hm : m.Gathered e) (hk : m.kind e = .comp c)
    (h : Rules.comp c.isSet (m.operand c.body) (c.generators.map fun g => m.ty g.source) (c.guard.map m.operand) =
      .ok t) : m.Closes e (m.setTy e t) := by
  refine .of_setTy hm fun s hs hcv => Rules.cv_comp h ?_
  rw [inner, hk] at hs
  simp only [ExprKind.parts, List.mem_append, List.mem_flatMap, List.mem_map, List.mem_singleton] at hs
  rcases hs with (⟨g, hg, hs⟩ | ⟨a, ha, rfl⟩) | rfl
  · obtain rfl := List.mem_singleton.mp hs
    exact .inr (.inl ⟨_, List.mem_map_of_mem hg, hcv⟩)
  · exact .inr (.inr ⟨_, Option.mem_map_of_mem _ (Option.mem_toList.mp ha), hcv⟩)
  · exact .inl hcv

section Lets

theorem marked_letItem (item : LetItem) : m.marked item.site = letItemCv m item := by
  cases item <;> rfl

theorem closes_letIn {l : Let} (hm : m.Gathered e) (hk : m.kind e = .letIn l)
    (h : finish e (.letIn l) { model := m, errors } = .ok ⟨⟩ c') : m.Closes e c'.model := by
  rw [finish] at h
  obtain ⟨origin, ⟨m₁, errors₁⟩, hx, hset⟩ := bind_eq_ok.mp h
  have hmodel : Upholds (fun c => c.model = m) (l.items.zipIdx.mapM fun p =>
      letOrigin p.1 (l.origin[p.2]?.getD none)) := .mapM fun p _ =>
      upholds_letOrigin (fun _ h => h) p.1 _
  have hend := (hmodel { model := m, errors } rfl).1
  rw [final_of_ok hx] at hend
  obtain rfl : m₁ = m := hend
  cases hset
  let k := ExprKind.letIn { l with origin }
  have hty : ∀ a, (m₁.setKind e k).ty a = m₁.ty a := by
    intro a
    rw [ty, setKind, expr_modifyExpr]
    split
    · next h => rw [h.1, ty]
    · rfl
  have hcv : letItemCv (m₁.setKind e k) = letItemCv m₁ := by
    funext item
    cases item with
    | decl d => rfl
    | constraint a => exact congrArg Ty.cv (hty a)
  change m₁.Closes e ((m₁.setKind e k).setTy e (Ty.withCv ((m₁.setKind e k).ty l.body)
    (((m₁.setKind e k).ty l.body).cv || l.items.any (letItemCv (m₁.setKind e k)))))
  rw [hty, hcv]
  have hnone : m₁.Reworks (fun _ => False) (fun _ => False) m₁ := .refl m₁
  refine .of_reworks (k := k) hm hnone (fun _ h => h.elim) (fun _ h => h.elim) (.inr ⟨rfl, hk ▸ rfl⟩)
    (fun c hc => ?_) ?_
  · rw [inner, hk]
    exact .inl hc
  · intro c hc hmark
    rcases List.mem_append.mp hc with hc | hc
    · obtain ⟨item, hitem, rfl⟩ := List.mem_map.mp hc
      rw [marked_letItem] at hmark
      simp [Ty.withCv, List.any_eq_true.mpr ⟨item, hitem, hmark⟩]
    · obtain rfl := List.mem_singleton.mp hc
      have hmark : (m₁.ty l.body).cv := hmark
      simp [Ty.withCv, hmark]

end Lets

theorem Closes.of_marks (h : m.Marks (.expr e)) : m.Closes e m where
  alters := .refl _ _
  anon _ _ hanon := hanon
  ann := rfl
  parts _ hc := .inl hc
  marks := h

theorem closes_finish (hm : m.Gathered e) (hk : m.kind e = k) (h : finish e k { model := m, errors } = .ok ⟨⟩ c') :
    m.Closes e c'.model := by
  cases k with
  | int | float | bool | string | intSet | absent | anon | typeVar =>
    cases h
    refine .of_marks ?_
    rw [Marks, inner, hk]
    exact fun _ hc => by cases hc
  | ident name b =>
    cases b with
    | none => cases h
    | some d =>
      rw [finish, ident, checkM_model_bind] at h
      split at h
      · cases h
      · cases h
        refine .of_setTy hm ?_
        rw [inner, hk]
        exact fun _ hc => by cases hc
  | setLit => exact closes_setLit hm hk h
  | arrayLit => exact closes_arrayLit hm hk h
  | access => exact closes_access hm hk h
  | comp c =>
    rw [finish, checkM_model_bind] at h
    obtain ⟨t, _, hx, h⟩ := bind_eq_ok.mp h
    obtain ⟨ht, rfl⟩ := ofExcept_eq_ok.mp hx
    cases h
    exact closes_comp hm hk ht
  | ite => exact closes_ite hm hk h
  | bin => exact closes_application hm hk rfl h
  | un => exact closes_application hm hk rfl h
  | call => exact closes_application hm hk rfl h
  | letIn => exact closes_letIn hm hk h

end Closing

end Model
end Parvar
