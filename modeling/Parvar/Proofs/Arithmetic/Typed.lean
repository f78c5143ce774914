import Parvar.Proofs.Arithmetic.Elaboration
import Parvar.Proofs.Resolve.Scoping
import Parvar.Proofs.Typing.Clean

/-!
The walk of the type checker over closed arithmetic. An expression may occur in several places: it is
elaborated the first time that it is met, and left alone after that.
-/

namespace Parvar

open Model Arith

variable {m m₀ m₁ m₂ : Model} {e o : ExprId} {bs : List (ExprId × ExprId)} {a : Arith} {k : Scalar} {n fuel : Nat}
  {pass : Pass} {c c₁ c' : Checking}

theorem annotations_nil {visit : Typing.Visit} (h : (c.model.expr e).ann = [])
    (hx : (do Typing.annotations visit ((← CheckM.model).expr e).ann : CheckM Unit) c = .ok () c') : c' = c := by
  rw [checkM_model_bind, h] at hx
  exact (pure_eq_ok.mp hx).2.symm

section Again

-- A walk that finds an elaborated expression changes nothing.
def Repeats (visit : Typing.Visit) (n : Nat) : Prop :=
  ∀ {e a k n' c c'}, c.model.Table → c.model.Elaborated n' [] e a k → visit (.expr e) c = .ok () c' →
    c' = c ∧ ∃ κ, c.model.Elaborated n [] e a κ

theorem Repeats.branches {visit : Typing.Visit} (hv : Repeats visit n) {n' : Nat} (hm : c.model.Table)
    (hb : c.model.Elaborated n' bs o a k) (h₁ : (bs.forM fun (x, y) => Typing.exprs visit [x, y]) c = .ok () c₁)
    (h₂ : visit (.expr o) c₁ = .ok () c') : c' = c ∧ c.model.Branches n bs o a := by
  induction bs generalizing a with
  | nil =>
    obtain ⟨-, rfl⟩ := pure_eq_ok.mp h₁
    obtain ⟨rfl, κ, ho⟩ := hv hm hb h₂
    exact ⟨rfl, .last ho⟩
  | cons p bs ih =>
    cases hb with
    | branch hx hy hr =>
      have ⟨_, c₂, hp, hrest⟩ := bind_eq_ok.mp h₁
      have ⟨_, c₃, hvx, hvp⟩ := bind_eq_ok.mp hp
      have ⟨_, c₄, hvy, hend⟩ := bind_eq_ok.mp hvp
      obtain ⟨-, rfl⟩ := pure_eq_ok.mp hend
      obtain ⟨rfl, _, hx⟩ := hv hm hx hvx
      obtain ⟨rfl, _, hy⟩ := hv hm hy hvy
      obtain ⟨rfl, hr⟩ := ih hr hrest
      exact ⟨rfl, .next hx hy hr⟩

theorem walk_again (pass : Pass) (fuel : Nat) : Repeats (Typing.walk pass fuel) (2 * fuel) := by
  induction fuel with
  | zero =>
    intro e a k n c c' _ _ h
    cases h
  | succ fuel ih =>
    intro e a k n c c' hm he h
    have ⟨n', kind, hnode, hcomp⟩ := he.composed
    have h : (Typing.node (Typing.walk pass fuel) e (c.model.kind e) >>= fun _ => do
        Typing.annotations (Typing.walk pass fuel) ((← CheckM.model).expr e).ann) c = .ok () c' := h
    have ⟨_, c₁, h₁, h₂⟩ := bind_eq_ok.mp h
    suffices hc : c₁ = c ∧ ∃ κ, c.model.Elaborated (2 * (fuel + 1)) [] e a κ by
      obtain ⟨rfl, hκ⟩ := hc
      exact ⟨annotations_nil hnode.ann h₂, hκ⟩
    have hbound : ∀ {κ}, c.model.Elaborated (2 * fuel + 1 + 1) [] e a κ →
        ∃ κ, c.model.Elaborated (2 * (fuel + 1)) [] e a κ := fun h => ⟨_, h.mono (by omega)⟩
    -- A node is set to what it is.
    have hset : ∀ {m'}, c.model.Rebuilt m' (2 * fuel + 1) e a → c₁ = { c with model := m' } →
        c₁ = c ∧ ∃ κ, c.model.Elaborated (2 * (fuel + 1)) [] e a κ := by
      rintro m' hr rfl
      obtain ⟨rfl, κ, hκ⟩ := hr.again he
      exact ⟨rfl, hbound hκ⟩
    rw [hnode.kind] at h₁
    cases hcomp with
    | int =>
      obtain ⟨-, rfl⟩ := pure_eq_ok.mp h₁
      exact ⟨rfl, hbound (.int hnode)⟩
    | bool =>
      obtain ⟨-, rfl⟩ := pure_eq_ok.mp h₁
      exact ⟨rfl, hbound (.bool hnode)⟩
    | bin _ hl hr =>
      have ⟨_, c₂, hv, hstep⟩ := bind_eq_ok.mp h₁
      have ⟨_, c₃, hvl, hvs⟩ := bind_eq_ok.mp hv
      have ⟨_, c₄, hvr, hend⟩ := bind_eq_ok.mp hvs
      obtain ⟨-, rfl⟩ := pure_eq_ok.mp hend
      obtain ⟨rfl, _, hl⟩ := ih hm hl hvl
      obtain ⟨rfl, _, hr⟩ := ih hm hr hvr
      have ⟨m', hc, hr⟩ := bin_rebuilt hm hnode.kind hl hr hstep
      exact hset hr hc
    | un _ hx =>
      have ⟨_, c₂, hv, hstep⟩ := bind_eq_ok.mp h₁
      obtain ⟨rfl, _, hx⟩ := ih hm hx hv
      have ⟨m', hc, hr⟩ := un_rebuilt hm hnode.kind hx hstep
      exact hset hr hc
    | ite hb =>
      have ⟨_, c₂, hv, hrest⟩ := bind_eq_ok.mp h₁
      have ⟨_, c₃, hvo, hstep⟩ := bind_eq_ok.mp hrest
      obtain ⟨rfl, hb⟩ := Repeats.branches ih hm hb hv hvo
      have ⟨m', hc, hr⟩ := ite_rebuilt hm hnode.kind hb hstep
      exact hset hr hc
    | promoted hx =>
      have ⟨_, c₂, hv, hstep⟩ := bind_eq_ok.mp h₁
      have ⟨_, c₃, hvx, hend⟩ := bind_eq_ok.mp hv
      obtain ⟨-, rfl⟩ := pure_eq_ok.mp hend
      obtain ⟨rfl, κ, hx⟩ := ih hm hx hvx
      obtain ⟨rfl, rfl⟩ := promotion_again hm hx hnode hstep
      exact ⟨rfl, hbound (.promoted hnode hx.succ)⟩

end Again

section First

-- Every expression that is closed arithmetic in `m₀` is as it was there, or elaborated.
structure Model.Underway (m₀ m : Model) : Prop where
  table : m.Table
  nodes : ∀ e a, m₀.Denotes [] e a → m.expr e = m₀.expr e ∨ ∃ n k, m.Elaborated n [] e a k

-- Only expressions of at most the given size were elaborated.
structure Model.Progress (m₀ : Model) (size : Nat) (m m₁ : Model) : Prop where
  tables : m.SameTables m₁
  exprs : m.exprs.size ≤ m₁.exprs.size
  elaborated : ∀ {n bs o a k}, m.Elaborated n bs o a k → m₁.Elaborated n bs o a k
  larger : ∀ e a, m₀.Denotes [] e a → size < a.size → m₁.expr e = m.expr e

variable {size size₁ size₂ : Nat}

theorem Model.Progress.refl (m₀ m : Model) (size : Nat) : Progress m₀ size m m :=
  ⟨.refl m, Nat.le_refl _, id, fun _ _ _ _ => rfl⟩

theorem Model.Progress.trans (h₁ : Progress m₀ size m m₁) (h₂ : Progress m₀ size m₁ m₂) : Progress m₀ size m m₂ :=
  ⟨h₁.tables.trans h₂.tables, Nat.le_trans h₁.exprs h₂.exprs, h₂.elaborated ∘ h₁.elaborated,
    fun e a he hs => (h₂.larger e a he hs).trans (h₁.larger e a he hs)⟩

theorem Model.Progress.mono (h : Progress m₀ size m m₁) (hs : size ≤ size₁) : Progress m₀ size₁ m m₁ :=
  ⟨h.tables, h.exprs, h.elaborated, fun e a he hlt => h.larger e a he (Nat.lt_of_le_of_lt hs hlt)⟩

-- A node that was as in `m₀` has been rebuilt from elaborated parts.
theorem Model.Rebuilt.progress (hm : m₀.Underway m) (he : m₀.Denotes [] e a) (hexpr : m.expr e = m₀.expr e)
    (h : m.Rebuilt m₁ n e a) :
    m₀.Underway m₁ ∧ Progress m₀ a.size m m₁ ∧ ∃ k, m₁.Elaborated (n + 1) [] e a k := by
  have hann : (m.expr e).ann = [] := hexpr ▸ he.parts.2
  have hpresent : ∀ {x b}, m₀.Denotes [] x b → m.expr x = m₀.expr x → x.index < m.exprs.size := by
    intro x b hx hexpr
    exact lt_of_kind_ne_anon (by rw [kind, hexpr]; exact hx.kind_ne_anon)
  obtain ⟨htables, hmono, helab, hsize, hrest⟩ := h.settles (hpresent he hexpr) hann
  refine ⟨⟨hm.table.congr htables, fun x b hx => ?_⟩, ⟨htables, hsize, hmono, fun x b hx hlt => ?_⟩, helab⟩
  · by_cases hxe : x = e
    · subst hxe
      obtain ⟨k, hk⟩ := helab
      exact .inr ⟨n + 1, k, he.unique hx ▸ hk⟩
    · cases hm.nodes x b hx
      case inl heq => exact .inl ((hrest x hxe (hpresent hx heq)).trans heq)
      case inr hex =>
        obtain ⟨n', k, hk⟩ := hex
        exact .inr ⟨n', k, hmono hk⟩
  · have hxe : x ≠ e := by
      rintro rfl
      exact absurd hlt (by rw [he.unique hx]; omega)
    cases hm.nodes x b hx
    case inl heq => exact hrest x hxe (hpresent hx heq)
    case inr hex =>
      obtain ⟨n', k, hk⟩ := hex
      exact hrest x hxe hk.present

-- A walk that elaborates what it meets.
def Elaborates (m₀ : Model) (visit : Typing.Visit) (n : Nat) : Prop :=
  ∀ {e a c c'}, m₀.Underway c.model → m₀.Denotes [] e a → visit (.expr e) c = .ok () c' →
    m₀.Underway c'.model ∧ Progress m₀ a.size c.model c'.model ∧ ∃ k, c'.model.Elaborated n [] e a k

-- The parts of a conditional are smaller than the whole.
theorem Elaborates.branches {visit : Typing.Visit} (hv : Elaborates m₀ visit n) (hm : m₀.Underway c.model)
    (hb : m₀.Denotes bs o a) (hs : a.size ≤ size + min bs.length 1)
    (h₁ : (bs.forM fun (x, y) => Typing.exprs visit [x, y]) c = .ok () c₁)
    (h₂ : visit (.expr o) c₁ = .ok () c') :
    m₀.Underway c'.model ∧ Progress m₀ size c.model c'.model ∧ c'.model.Branches n bs o a := by
  induction bs generalizing a c with
  | nil =>
    obtain ⟨-, rfl⟩ := pure_eq_ok.mp h₁
    obtain ⟨hm', hp, k, ho⟩ := hv hm hb h₂
    exact ⟨hm', hp.mono (by simpa using hs), .last ho⟩
  | cons p bs ih =>
    cases hb with
    | branch hx hy hr =>
      obtain ⟨_, c₂, hp, hrest⟩ := bind_eq_ok.mp h₁
      obtain ⟨_, c₃, hvx, hvp⟩ := bind_eq_ok.mp hp
      obtain ⟨_, c₄, hvy, hend⟩ := bind_eq_ok.mp hvp
      obtain ⟨-, rfl⟩ := pure_eq_ok.mp hend
      obtain ⟨hm₁, hp₁, _, hx⟩ := hv hm hx hvx
      obtain ⟨hm₂, hp₂, _, hy⟩ := hv hm₁ hy hvy
      simp only [Arith.size, List.length_cons] at hs
      obtain ⟨hm₃, hp₃, hr⟩ := ih hm₂ hr (by omega) hrest
      exact ⟨hm₃, (hp₁.mono (by omega)).trans ((hp₂.mono (by omega)).trans hp₃),
        .next (hp₃.elaborated (hp₂.elaborated hx)) (hp₃.elaborated hy) hr⟩

theorem walk_elaborates (m₀ : Model) (pass : Pass) (fuel : Nat) :
    Elaborates m₀ (Typing.walk pass fuel) (2 * fuel) := by
  induction fuel with
  | zero =>
    intro e a c c' _ _ h
    cases h
  | succ fuel ih =>
    intro e a c c' hm he h
    by_cases hex : ∃ n k, c.model.Elaborated n [] e a k
    · obtain ⟨n, k, hk⟩ := hex
      obtain ⟨rfl, hκ⟩ := walk_again pass (fuel + 1) hm.table hk h
      exact ⟨hm, .refl _ _ _, hκ⟩
    have hexpr : c.model.expr e = m₀.expr e := (hm.nodes e a he).resolve_right hex
    have h : (Typing.node (Typing.walk pass fuel) e (c.model.kind e) >>= fun _ => do
        Typing.annotations (Typing.walk pass fuel) ((← CheckM.model).expr e).ann) c = .ok () c' := h
    obtain ⟨_, c₁, h₁, h₂⟩ := bind_eq_ok.mp h
    suffices hc : m₀.Underway c₁.model ∧ Progress m₀ a.size c.model c₁.model ∧
        ∃ k, c₁.model.Elaborated (2 * (fuel + 1)) [] e a k by
      obtain ⟨k, hk⟩ := hc.2.2
      obtain ⟨_, _, hnode⟩ := hk.node
      rwa [annotations_nil hnode.ann h₂]
    -- The parts were elaborated, and the node was then rebuilt.
    have hset : ∀ {c₂ : Checking} {size}, m₀.Underway c₂.model → Progress m₀ size c.model c₂.model → size < a.size →
        (c₂.model.expr e = m₀.expr e → ∃ m', c₁ = { c₂ with model := m' } ∧ c₂.model.Rebuilt m' (2 * fuel + 1) e a) →
        m₀.Underway c₁.model ∧ Progress m₀ a.size c.model c₁.model ∧
          ∃ k, c₁.model.Elaborated (2 * (fuel + 1)) [] e a k := by
      intro c₂ size hm₂ hp hlt hstep
      have hexpr₂ := (hp.larger e a he hlt).trans hexpr
      obtain ⟨m', rfl, hr⟩ := hstep hexpr₂
      obtain ⟨hm', hp', k, hk⟩ := hr.progress hm₂ he hexpr₂
      exact ⟨hm', (hp.mono (Nat.le_of_lt hlt)).trans hp', k, hk.mono (by omega)⟩
    rw [kind, hexpr, ← kind] at h₁
    cases he with
    | int hn => exact absurd ⟨1, _, .int (hn.congr hexpr)⟩ hex
    | bool hn => exact absurd ⟨1, _, .bool (hn.congr hexpr)⟩ hex
    | bin hn hl hr =>
      rw [hn.kind] at h₁
      obtain ⟨_, c₂, hv, hstep⟩ := bind_eq_ok.mp h₁
      obtain ⟨_, c₃, hvl, hvs⟩ := bind_eq_ok.mp hv
      obtain ⟨_, c₄, hvr, hend⟩ := bind_eq_ok.mp hvs
      obtain ⟨-, rfl⟩ := pure_eq_ok.mp hend
      obtain ⟨hm₁, hp₁, _, hl'⟩ := ih hm hl hvl
      obtain ⟨hm₂, hp₂, _, hr'⟩ := ih hm₁ hr hvr
      refine hset hm₂ ((hp₁.mono (Nat.le_add_right _ _)).trans (hp₂.mono (Nat.le_add_left _ _)))
        (Nat.lt_succ_self _) fun hexpr₂ => ?_
      rw [spanOf, ← hexpr₂]
      exact bin_rebuilt hm₂.table (by rw [kind, hexpr₂, ← kind, hn.kind]) (hp₂.elaborated hl') hr' hstep
    | un hn hx =>
      rw [hn.kind] at h₁
      obtain ⟨_, c₂, hv, hstep⟩ := bind_eq_ok.mp h₁
      obtain ⟨hm₁, hp₁, _, hx'⟩ := ih hm hx hv
      refine hset hm₁ hp₁ (Nat.lt_succ_self _) fun hexpr₂ => ?_
      rw [spanOf, ← hexpr₂]
      exact un_rebuilt hm₁.table (by rw [kind, hexpr₂, ← kind, hn.kind]) hx' hstep
    | ite hn hb =>
      rw [hn.kind] at h₁
      obtain ⟨_, c₂, hv, hrest⟩ := bind_eq_ok.mp h₁
      obtain ⟨_, c₃, hvo, hstep⟩ := bind_eq_ok.mp hrest
      have hpos := a.size_pos
      have hs : ∀ j, a.size ≤ a.size - 1 + min (j + 1) 1 := fun j => by omega
      obtain ⟨hm₁, hp₁, hb'⟩ := Elaborates.branches ih hm hb (hs _) hv hvo
      refine hset hm₁ hp₁ (by omega) fun hexpr₂ => ?_
      exact ite_rebuilt hm₁.table (by rw [kind, hexpr₂, ← kind, hn.kind]) hb' hstep

end First

section Check

variable {r r₁ r' : Resolution} {m' : Model} {ty : Ty}

-- There is nothing to resolve in closed arithmetic.
theorem resolve_branches {visit : Resolve.Visit}
    (hv : ∀ {e a r r'}, r.model.Denotes [] e a → visit (.expr e) r = .ok () r' → r' = r)
    (hb : r.model.Denotes bs o a) (h₁ : (bs.forM fun (x, y) => Resolve.exprs visit [x, y]) r = .ok () r₁)
    (h₂ : visit (.expr o) r₁ = .ok () r') : r' = r := by
  induction bs generalizing a with
  | nil =>
    obtain ⟨-, rfl⟩ := pure_eq_ok.mp h₁
    exact hv hb h₂
  | cons p bs ih =>
    cases hb with
    | branch hx hy hr =>
      have ⟨_, r₂, hp, hrest⟩ := bind_eq_ok.mp h₁
      have ⟨_, r₃, hvx, hvp⟩ := bind_eq_ok.mp hp
      have ⟨_, r₄, hvy, hend⟩ := bind_eq_ok.mp hvp
      obtain ⟨-, rfl⟩ := pure_eq_ok.mp hend
      obtain rfl := hv hx hvx
      obtain rfl := hv hy hvy
      exact ih hr hrest

theorem resolve_closed {fuel : Nat} (he : r.model.Denotes [] e a) (h : Resolve.walk fuel (.expr e) r = .ok () r') :
    r' = r := by
  induction fuel generalizing e a r r' with
  | zero => cases h
  | succ fuel ih =>
    have ⟨hp, hann⟩ := he.parts
    have h : (Resolve.node (Resolve.walk fuel) e (r.model.expr e).span (r.model.kind e) >>= fun _ =>
        Resolve.exprs (Resolve.walk fuel) (r.model.expr e).ann) r = .ok () r' := h
    have ⟨_, r₁, h₁, h₂⟩ := bind_eq_ok.mp h
    rw [hann] at h₂
    obtain ⟨-, rfl⟩ := pure_eq_ok.mp h₂
    cases hk : r.model.kind e <;> rw [hk] at hp h₁
    case int | bool => exact (pure_eq_ok.mp h₁).2.symm
    case bin =>
      have ⟨_, _, _, _, _, hl, hr⟩ := hp
      have ⟨_, r₂, hvl, hvs⟩ := bind_eq_ok.mp h₁
      have ⟨_, r₃, hvr, hend⟩ := bind_eq_ok.mp hvs
      obtain ⟨-, rfl⟩ := pure_eq_ok.mp hend
      obtain rfl := ih hl hvl
      exact ih hr hvr
    case un =>
      have ⟨_, _, hx⟩ := hp
      exact ih hx h₁
    case ite =>
      have ⟨_, r₂, hv, hvo⟩ := bind_eq_ok.mp h₁
      exact resolve_branches ih hp.2 hv hvo
    all_goals cases hp

theorem Model.Denotes.congr (hx : ∀ x, m.kind x ≠ .anon → m₁.expr x = m.expr x) (h : m.Denotes bs o a) :
    m₁.Denotes bs o a := by
  have hnode : ∀ {x kind ty}, kind ≠ .anon → m.Node x kind ty → m₁.Node x kind ty ∧ m.spanOf x = m₁.spanOf x := by
    intro x kind ty hk hn
    have heq := hx x (hn.kind ▸ hk)
    exact ⟨hn.congr heq, by rw [spanOf, spanOf, heq]⟩
  induction h with
  | int h => exact .int (hnode (by simp) h).1
  | bool h => exact .bool (hnode (by simp) h).1
  | bin h _ _ ihl ihr =>
    obtain ⟨h, hs⟩ := hnode (by simp) h
    exact hs ▸ .bin h ihl ihr
  | un h _ ih =>
    obtain ⟨h, hs⟩ := hnode (by simp) h
    exact hs ▸ .un h ih
  | ite h _ ih => exact .ite (hnode (by simp) h).1 ih
  | branch _ _ _ ihc ihv ihr => exact .branch ihc ihv ihr

theorem Model.Standard.sortOverloads (h : m.Standard) : m.sortOverloads.Table := by
  have hbuiltin : ∀ f s, m.Builtin f s → m.sortOverloads.Builtin f s := fun f s hf =>
    ⟨hf.present, hf.name, hf.body, hf.params.imp fun _ _ hp => ⟨hp.ty_eq, hp.written.ty_eq, hp.written.domain⟩,
      hf.ret.ty_eq, hf.ret.domain⟩
  refine ⟨⟨fun name f hf => ?_, fun s hs => ?_⟩, sorted_sortOverloads m⟩
  · obtain ⟨s, hs, hname, hf⟩ := h.builtin name f (overload_sorted_iff.mp hf)
    exact ⟨s, hs, hname, hbuiltin f s hf⟩
  · obtain ⟨f, hover', hf⟩ := h.declared s hs
    exact ⟨f, overload_sorted_iff.mpr hover', hbuiltin f s hf⟩

theorem Model.SameTables.walkFuel_le (h : m.SameTables m₁) (hs : m.exprs.size ≤ m₁.exprs.size) :
    m.walkFuel ≤ m₁.walkFuel := by
  have hsize : m.size ≤ m₁.size := by
    rw [h]
    simp only [Model.size]
    omega
  exact Nat.mul_self_le_mul_self (Nat.add_le_add_right hsize 2)

-- Closed arithmetic that is accepted has been elaborated, to a depth that its check has walked.
theorem checkExpr_elaborated (hm : m.withLibrary.Standard) (he : m.Denotes [] e a) (h : checkExpr e m = .ok ty m') :
    m'.Table ∧ ∃ k, ty = k.ty ∧ m'.Elaborated (2 * m'.walkFuel) [] e a k := by
  have ⟨⟨⟨⟩, order⟩, m₀, h₀, h⟩ := bind_eq_ok.mp h
  have ⟨_, m₁, h₁, h⟩ := bind_eq_ok.mp h
  obtain ⟨rfl, rfl⟩ := pure_eq_ok.mp h
  obtain ⟨r, r', hr, hx, rfl, rfl⟩ := Resolve.toplevel_eq_ok h₀
  have he : m.withLibrary.sortOverloads.Denotes [] e a :=
    he.congr fun x hx => (Resolve.extends_start m).expr_eq (lt_of_kind_ne_anon hx)
  rw [← hr.model] at he
  obtain rfl := resolve_closed he hx
  -- Nothing was resolved, so no declaration comes first.
  rw [hr.start] at h₁
  have ⟨_, m₂, h₂, h₁⟩ := bind_eq_ok.mp h₁
  obtain ⟨c, hc, -, rfl⟩ := checking_eq_ok h₂
  obtain ⟨-, rfl⟩ := pure_eq_ok.mp hc
  have ⟨errors, m₃, h₃, h₁⟩ := bind_eq_ok.mp h₁
  obtain ⟨c', hwalk, -, rfl⟩ := checking_eq_ok h₃
  obtain rfl : c'.model = m₁ := by
    cases errors with
    | nil => exact (pure_eq_ok.mp h₁).2
    | cons => cases h₁
  rw [hr.model] at he
  have ⟨hm', hp, k, hk⟩ := walk_elaborates _ _ _ ⟨hm.sortOverloads, fun _ _ _ => .inl rfl⟩ he hwalk
  exact ⟨hm'.table, k, hk.ty_eq, hk.mono (Nat.mul_le_mul_left 2 (hp.tables.walkFuel_le hp.exprs))⟩

end Check
end Parvar
