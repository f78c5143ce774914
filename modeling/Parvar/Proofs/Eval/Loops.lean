import Parvar.Proofs.Eval.Framing
import Parvar.Proofs.IntSet.Membership
import Parvar.Typing.Check

/-!
A comprehension comes to what nested loops come to. The loops below hand the values of the names on
from the outer to the inner ones, and give all of them to the names anew before each step, so that
no step depends on what an earlier turn has left in a name that is in scope. A comprehension gives a
value to a name once in a turn. Meanwhile evaluation goes through calls and comprehensions which may
bind the same names, and yet leaves them with the values of the turn.
-/

namespace Parvar
namespace Eval

open Machine

section Definitions

-- Names with the values that they have been given, those of the outermost loop first.
abbrev Bindings := List (DeclId × ExprId)

def assign (s : Machine) (b : DeclId × ExprId) : Machine :=
  { s with model := s.model.modifyDecl b.1 ({ · with init := some b.2, evaluated := false }) }

def assigned (ρ : Bindings) (s : Machine) : Machine := ρ.foldl assign s

variable {α : Type}

-- A step in which names have the given values.
def under (ρ : Bindings) (x : EvalM α) : EvalM α := fun s => x (assigned ρ s)

-- Every way to choose among the values for each name, the choice for the last name changing fastest.
def choices (values : List ExprId) : List DeclId → List Bindings
  | [] => [[]]
  | d :: names => values.flatMap fun v => (choices values names).map ((d, v) :: ·)

variable (ev : Eval) (guard : Option ExprId) (each : EvalM α)

-- The result of one turn of the innermost loop, if its guard holds.
def turn : EvalM (List α) := do
  let holds ← match guard with
    | none => pure true
    | some g => ev.bool g
  if holds then return [← each] else return []

def loops : List Generator → Bindings → EvalM (List α)
  | [], ρ => under ρ (turn ev guard each)
  | g :: generators, ρ => do
    let values ← under ρ (sourceValues ev g.source)
    let results ← (choices values g.decls).mapM fun σ => loops generators (ρ ++ σ)
    return results.flatten

def nestedLoops (c : Comprehension) (each : ExprId → EvalM α) : EvalM (List α) := do
  let saved ← (c.generators.flatMap (·.decls)).mapM fun d => bind d none
  restoring saved (loops ev c.guard (each c.body) c.generators [])

end Definitions

section Carries

variable {names : List DeclId} {s t : Machine} {b : DeclId × ExprId} {ρ σ : Bindings}

theorem assigned_append : assigned (ρ ++ σ) s = assigned σ (assigned ρ s) := by
  simp [assigned]

theorem assign_eq_self (h : b.1.index < s.model.decls.size →
    (s.model.decl b.1).init = some b.2 ∧ (s.model.decl b.1).evaluated = false) : assign s b = s := by
  have hm : s.model.modifyDecl b.1 ({ · with init := some b.2, evaluated := false }) = s.model :=
    Model.modifyDecl_eq_self fun hb => by rw [← (h hb).1, ← (h hb).2]
  rw [assign, hm]

theorem framed_assign : Framed [b.1] s (assign s b) :=
  .modifyDecl (fun _ => rfl) fun hb => (hb (List.mem_singleton_self _)).elim

-- Each name in scope has its value. No name of the loops keeps what is computed of its value.
structure Carries (names : List DeclId) (s : Machine) (ρ : Bindings) : Prop where
  passes : ∀ d ∈ names, (s.model.decl d).toplevel = false ∧ (s.model.decl d).ty.dim ≤ 0
  scope : ∀ b ∈ ρ, b.1 ∈ names
  holds : ∀ b ∈ ρ, b.1.index < s.model.decls.size →
    (s.model.decl b.1).init = some b.2 ∧ (s.model.decl b.1).evaluated = false

namespace Carries

variable (h : Carries names s ρ)
include h

theorem assigned_eq : assigned ρ s = s := by
  have hs : ∀ σ ⊆ ρ, assigned σ s = s := by
    intro σ hσ
    induction σ with
    | nil => rfl
    | cons b σ ih =>
      obtain ⟨hb, hσ⟩ := List.cons_subset.mp hσ
      rw [assigned, List.foldl_cons, assign_eq_self (h.holds b hb)]
      exact ih hσ
  exact hs ρ (List.Subset.refl ρ)

-- The names keep their values in whatever leaves their declarations as they were.
theorem framed {ds : List DeclId} (hf : Framed ds s t) (hρ : ∀ b ∈ ρ, b.1 ∉ ds) : Carries names t ρ where
  passes d hd := by
    rw [hf.rebound d]
    exact h.passes d hd
  scope := h.scope
  holds b hb hsize := by
    obtain ⟨htop, hdim⟩ := h.passes b.1 (h.scope b hb)
    obtain ⟨hinit, hev⟩ := (hf.kept b.1 (hρ b hb)).same_of_passing htop hdim
    rw [hinit, hev]
    exact h.holds b hb (hf.size ▸ hsize)

theorem assign (hb : b.1 ∈ names) (hρ : ∀ c ∈ ρ, c.1 ≠ b.1) : Carries names (assign s b) (ρ ++ [b]) := by
  have hk := h.framed framed_assign fun c hc => List.mem_singleton.not.mpr (hρ c hc)
  refine { passes := hk.passes, scope := ?_, holds := ?_ }
  · intro c hc
    obtain hc | hc := List.mem_append.mp hc
    · exact h.scope c hc
    · exact List.mem_singleton.mp hc ▸ hb
  · intro c hc hsize
    obtain hc | hc := List.mem_append.mp hc
    · exact hk.holds c hc hsize
    · cases List.mem_singleton.mp hc
      rw [Eval.assign, Model.size_modifyDecl] at hsize
      simp [Eval.assign, Model.decl_modifyDecl, hsize]

end Carries
end Carries

section Adds

variable {α : Type}

-- From a state on, a step adds the results of another one to those that it is given.
def Adds (s : Machine) (next : Array α → EvalM (Array α)) (x : EvalM (List α)) : Prop :=
  ∀ out, next out s = (do return out ++ (← x).toArray) s

-- A loop adds what its turns add, one after the other.
theorem Adds.foldlM {β : Type} {P : Machine → Prop} {f : β → Array α → EvalM (Array α)}
    {x : β → EvalM (List α)} {bs : List β} (hf : ∀ b ∈ bs, ∀ s, P s → Adds s (f b) (x b))
    (hP : ∀ b ∈ bs, ∀ {s out r t}, P s → f b out s = .ok r t → P t) {s : Machine} (hs : P s) :
    Adds s (fun out => bs.foldlM (fun out b => f b out) out) (do return (← bs.mapM x).flatten) := by
  induction bs generalizing s with
  | nil =>
    intro out
    simp
  | cons b bs ih =>
    intro out
    have hb := hf b List.mem_cons_self s hs out
    have ih {s : Machine} (hs : P s) := ih (fun b hb => hf b (List.mem_cons_of_mem _ hb))
      (fun b hb => hP b (List.mem_cons_of_mem _ hb)) hs
    change (f b out >>= fun out => bs.foldlM (fun out b => f b out) out) s = _
    simp only [List.mapM_cons, bind_assoc, pure_bind]
    cases hx : x b s with
    | error h t =>
      rw [bind_eq_error.mpr (.inl hx)] at hb ⊢
      rw [bind_eq_error.mpr (.inl hb)]
    | ok rs t =>
      rw [bind_of_ok hx] at hb ⊢
      rw [bind_of_ok hb]
      refine (ih (hP b List.mem_cons_self hs hb) _).trans ?_
      simp [Array.append_assoc]

variable {s : Machine}

-- Loops over choices that are listed in groups.
theorem mapM_flatMap_flatten {β γ : Type} (f : γ → EvalM (List α)) (g : β → List γ) (bs : List β) :
    (do return (← (bs.flatMap g).mapM f).flatten) =
      (do return (← bs.mapM fun b => do return (← (g b).mapM f).flatten).flatten) := by
  induction bs with
  | nil => simp
  | cons b bs ih =>
    rw [List.flatMap_cons, List.mapM_append, List.mapM_cons]
    simp only [bind_assoc, pure_bind, List.flatten_append, List.flatten_cons]
    refine bind_congr fun rs => ?_
    simpa using congrArg (· >>= fun rest => pure (rs.flatten ++ rest)) ih

theorem choices_ne_nil {v : ExprId} {values : List ExprId} (h : v ∈ values) (names : List DeclId) :
    choices values names ≠ [] := by
  induction names with
  | nil => simp [choices]
  | cons d names ih =>
    obtain ⟨σ, hσ⟩ := List.exists_mem_of_ne_nil _ ih
    refine List.ne_nil_of_mem (a := (d, v) :: σ) ?_
    simp only [choices, List.mem_flatMap, List.mem_map]
    exact ⟨v, h, σ, hσ, rfl⟩

end Adds

section Equality

variable {α : Type} {names : List DeclId} {s : Machine} {ρ : Bindings}

-- Where a first step ends decides what follows it, and not where it began.
theorem bind_congr_start {β : Type} {x y : EvalM α} {f : α → EvalM β} {t : Machine} (h : x s = y t) :
    (x >>= f) s = (y >>= f) t := by
  change EStateM.bind x f s = EStateM.bind y f t
  simp only [EStateM.bind, h]

theorem mapM_congr_start {β : Type} {f : β → EvalM α} {bs : List β} {t : Machine} (hne : bs ≠ [])
    (h : ∀ b, f b s = f b t) : bs.mapM f s = bs.mapM f t := by
  cases bs with
  | nil => contradiction
  | cons b bs =>
    rw [List.mapM_cons]
    exact bind_congr_start (h b)

theorem loops_congr_start {ev : Eval} {guard : Option ExprId} {each : EvalM α} {t : Machine}
    (h : assigned ρ s = assigned ρ t) (generators : List Generator) :
    loops ev guard each generators ρ s = loops ev guard each generators ρ t := by
  cases generators with
  | nil => simp only [loops, under, h]
  | cons g generators => exact bind_congr_start (by rw [under, under, h])

-- A generator gives to each of its names each of its values.
theorem adds_eachAssignment {ds : List DeclId} (values : List ExprId) {next : Array α → EvalM (Array α)}
    {inner : Bindings → EvalM (List α)} (hnext : ∀ out, Keeps (Framed ds) (next out))
    (hinner : ∀ {ρ s t}, assigned ρ s = assigned ρ t → inner ρ s = inner ρ t)
    (hadds : ∀ {ρ s}, Carries names s ρ → (ρ.map (·.1) ++ ds).Nodup → Adds s next (inner ρ)) :
    ∀ {cs : List DeclId} {ρ : Bindings} {s : Machine}, Carries names s ρ →
      (ρ.map (·.1) ++ (cs ++ ds)).Nodup → cs ⊆ names →
        Adds s (eachAssignment values next cs)
          (do return (← (choices values cs).mapM fun σ => inner (ρ ++ σ)).flatten)
  | [], ρ, s, hs, hnd, _ => by
    simpa [choices, eachAssignment, Adds] using hadds hs (by simpa using hnd)
  | d :: cs, ρ, s, hs, hnd, hsub => by
    obtain ⟨hd, hcs⟩ := List.cons_subset.mp hsub
    have hfree : ∀ b ∈ ρ, b.1 ∉ d :: cs ++ ds := fun b hb =>
      List.disjoint_left.mp (List.disjoint_of_nodup_append hnd) (List.mem_map_of_mem hb)
    have hturn {v : ExprId} {out r : Array α} {s t : Machine}
        (h : eachAssignment values next cs out (assign s (d, v)) = .ok r t) : Framed (d :: cs ++ ds) s t := by
      have hk : Keeps (Framed (d :: cs ++ ds)) (eachAssignment values next cs out) :=
        keeps_eachAssignment (fun out => (hnext out).mono fun _ _ hf => hf.mono (by simp +contextual))
          (by simp +contextual)
      exact (framed_assign.mono (by simp)).trans (hk.of_ok h)
    rw [choices, mapM_flatMap_flatten]
    refine Adds.foldlM (P := fun s => Carries names s ρ) (fun v hv s hs out => ?_)
      (fun v hv s out r t hs h => hs.framed (hturn h) hfree) hs
    -- The turn begins where the name has its value, and so do the loops in it wherever they begin.
    have hs' : Carries names (assign s (d, v)) (ρ ++ [(d, v)]) :=
      hs.assign hd fun b hb he => hfree b hb (by simp [he])
    have hstart (σ : Bindings) : assigned (ρ ++ [(d, v)] ++ σ) (assign s (d, v)) =
        assigned (ρ ++ (d, v) :: σ) s := by
      rw [assigned_append, hs'.assigned_eq, assigned_append, hs.assigned_eq]
      rfl
    refine (adds_eachAssignment values hnext hinner hadds hs' (by simpa using hnd) hcs out).trans ?_
    simp only [List.mapM_map, Function.comp_def, List.append_assoc, List.singleton_append] at hstart ⊢
    refine bind_congr_start (bind_congr_start ?_)
    exact mapM_congr_start (choices_ne_nil hv cs) fun σ => hinner (hstart σ)

variable {ev : Eval} (hev : Framing ev) {guard : Option ExprId} {each : EvalM α}
  (heach : ∀ ds, Keeps (Framed ds) each)
include hev heach

theorem adds_eachBinding : ∀ {generators : List Generator} {ρ : Bindings} {s : Machine},
    Carries names s ρ → (ρ.map (·.1) ++ generators.flatMap (·.decls)).Nodup →
      generators.flatMap (·.decls) ⊆ names →
        Adds s (eachBinding ev guard each generators) (loops ev guard each generators ρ)
  | [], ρ, s, hs, _, _ => by
    intro out
    have hturn : eachBinding ev guard each [] out = (do return out ++ (← turn ev guard each).toArray) := by
      cases guard with
      | none => simp [eachBinding, turn]
      | some g =>
        simp only [eachBinding, turn, bind_assoc]
        refine bind_congr fun holds => ?_
        cases holds <;> simp
    have hloops : loops ev guard each [] ρ s = turn ev guard each s := by
      rw [loops.eq_def]
      simp only [under, hs.assigned_eq]
    rw [hturn]
    exact bind_congr_start hloops.symm
  | g :: generators, ρ, s, hs, hnd, hsub => by
    intro out
    simp only [List.flatMap_cons, List.append_subset] at hnd hsub
    have hsource : under ρ (sourceValues ev g.source) s = sourceValues ev g.source s := by
      rw [under, hs.assigned_eq]
    simp only [eachBinding, loops, bind_assoc]
    cases hv : sourceValues ev g.source s with
    | error h t =>
      rw [bind_eq_error.mpr (.inl hv), bind_eq_error.mpr (.inl (hsource.trans hv))]
    | ok values t =>
      rw [bind_of_ok hv, bind_of_ok (hsource.trans hv)]
      have hframed : Framed [] s t := ((hev.comparison []).sourceValues (hev []) g.source).of_ok hv
      have ht : Carries names t ρ := hs.framed hframed fun _ _ => List.not_mem_nil
      have hg := adds_eachAssignment values (fun out => hev.eachBinding (heach _) fun d hd => hd)
        (fun h => loops_congr_start h generators) (fun hs hnd => adds_eachBinding hs hnd hsub.2)
        ht hnd hsub.1 out
      simpa using hg

end Equality

section Comprehensions

-- The names of a comprehension are distinct, and keep nothing that is computed of their values.
structure Loopable (m : Model) (c : Comprehension) : Prop where
  distinct : (c.generators.flatMap (·.decls)).Nodup
  passes : ∀ d ∈ c.generators.flatMap (·.decls), (m.decl d).toplevel = false ∧ (m.decl d).ty.dim ≤ 0

variable {s : Machine} {c : Comprehension}

theorem comprehension_eq_nestedLoops {α : Type} {ev : Eval} (hev : Framing ev) {each : ExprId → EvalM α}
    (heach : ∀ ds e, Keeps (Framed ds) (each e)) (hc : Loopable s.model c) :
    comprehension ev c each s = nestedLoops ev c each s := by
  obtain ⟨saved, t, ho, -⟩ := opens_mapM (c.generators.flatMap (·.decls)) (·) (fun _ => none) s
  have hf : Framed (c.generators.flatMap (·.decls)) s t := by
    refine Keeps.of_ok (.mapM fun d hd s => ?_) ho
    exact .modifyDecl (fun _ => rfl) fun hn => (hn hd).elim
  have ht : Carries (c.generators.flatMap (·.decls)) t [] := by
    refine { passes := fun d hd => ?_, scope := by simp, holds := by simp }
    rw [hf.rebound d]
    exact hc.passes d hd
  have hbody : Adds t (eachBinding ev c.guard (each c.body) c.generators)
      (loops ev c.guard (each c.body) c.generators []) :=
    adds_eachBinding hev (heach · c.body) ht hc.distinct (List.Subset.refl _)
  have hadds := hbody #[]
  simp only [comprehension, nestedLoops]
  rw [bind_of_ok ho, bind_of_ok ho]
  cases hl : loops ev c.guard (each c.body) c.generators [] t with
  | error h u =>
    rw [bind_eq_error.mpr (.inl hl)] at hadds
    rw [bind_eq_error.mpr (.inl (by rw [restoring, hadds])), restoring, hl]
  | ok rs u =>
    rw [bind_of_ok hl, Array.empty_append] at hadds
    rw [bind_of_ok (restoring_eq_ok.mpr ⟨u, hadds, rfl⟩), restoring, hl]
    rfl

end Comprehensions
end Eval

open Eval

-- An array comprehension holds the results of nested loops in their order, and a comprehension of a
-- set of integers all these results and nothing else.
theorem comprehension_nested_loops (limit fuel : Nat) {s : Machine} {e : ExprId} {c : Comprehension}
    (he : s.model.kind e = .comp c) (hc : Loopable s.model c) :
    (c.isSet = false → run limit (fuel + 1) (.value .array) e s = (do
      let elems ← nestedLoops (run limit fuel) c (run limit fuel).residual
      arrayLit elems (Build.countedFromOne elems) (s.model.ty e) (s.model.spanOf e)) s) ∧
    (∀ set t, run limit (fuel + 1) (.value .intSet) e s = .ok set t →
      ∃ vs, nestedLoops (run limit fuel) c (run limit fuel).int s = .ok vs t ∧
        ∀ v, set.contains v ↔ v ∈ vs) ∧
    ∀ vs t, nestedLoops (run limit fuel) c (run limit fuel).int s = .ok vs t →
      ∃ set, run limit (fuel + 1) (.value .intSet) e s = .ok set t := by
  have hev : Framing (run limit fuel) := framing_run limit fuel
  have hx : (s.model.expr e).kind = .comp c := he
  have hset : run limit (fuel + 1) (.value .intSet) e s =
      (do return IntSet.ofValues (← nestedLoops (run limit fuel) c (run limit fuel).int)) s := by
    change valueStep (run limit fuel) limit .intSet e s = _
    rw [valueStep_eq rfl, he]
    simp only [ValueKind.literal?, compound, hx, node, intSetNode]
    exact bind_congr_start (comprehension_eq_nestedLoops hev (fun ds e => hev ds _ e) hc)
  refine ⟨fun hs => ?_, fun set t h => ?_, fun vs t h => ?_⟩
  · change valueStep (run limit fuel) limit .array e s = _
    rw [valueStep_eq rfl, he]
    simp only [ValueKind.literal?, compound, hx, node, arrayNode, hs]
    exact bind_congr_start (comprehension_eq_nestedLoops hev (fun ds e => hev ds _ e) hc)
  · rw [hset] at h
    obtain ⟨vs, u, hvs, h⟩ := bind_eq_ok.mp h
    obtain ⟨rfl, rfl⟩ := pure_eq_ok.mp h
    exact ⟨vs, hvs, fun v => IntSet.contains_ofValues⟩
  · exact ⟨.ofValues vs, by rw [hset, bind_of_ok h]; rfl⟩

section Examples

-- `{10 div (j - i) + k | i, j in 1..2, k in i..j where i < j}`
def gaps : Comprehension := ⟨⟨11⟩, [⟨[⟨0⟩, ⟨1⟩], ⟨2⟩⟩, ⟨[⟨2⟩], ⟨5⟩⟩], some ⟨6⟩, true⟩

def gapsModel : Model where
  exprs := #[{ kind := .int 1, ty := .parInt }, { kind := .int 2, ty := .parInt },
    { kind := .bin .range ⟨0⟩ ⟨1⟩ none, ty := .parSetInt }, { kind := .ident "i" (some ⟨0⟩), ty := .parInt },
    { kind := .ident "j" (some ⟨1⟩), ty := .parInt }, { kind := .bin .range ⟨3⟩ ⟨4⟩ none, ty := .parSetInt },
    { kind := .bin .lt ⟨3⟩ ⟨4⟩ none, ty := .parBool }, { kind := .int 10, ty := .parInt },
    { kind := .bin .sub ⟨4⟩ ⟨3⟩ none, ty := .parInt }, { kind := .bin .idiv ⟨7⟩ ⟨8⟩ none, ty := .parInt },
    { kind := .ident "k" (some ⟨2⟩), ty := .parInt }, { kind := .bin .add ⟨9⟩ ⟨10⟩ none, ty := .parInt },
    { kind := .comp gaps, ty := .parSetInt }]
  decls := #[{ name := "i", ti := ⟨0⟩, ty := .parInt }, { name := "j", ti := ⟨1⟩, ty := .parInt },
    { name := "k", ti := ⟨2⟩, ty := .parInt }]
  typeInsts := #[{ ty := .parInt }, { ty := .parInt }, { ty := .parInt }]

theorem loopable_gaps : Loopable gapsModel gaps := ⟨by decide, by decide⟩

-- There is no division by zero, as the body has no turn in which the guard does not hold.
theorem comprehension_nested_loops_gaps :
    Loopable gapsModel gaps ∧
      ∃ set t, run 0 9 (.value .intSet) ⟨12⟩ { model := gapsModel } = .ok set t ∧
        ∀ v, IntSet.contains set v ↔ v ∈ ([11, 12] : List Int64) := by
  have hvs : nestedLoops (run 0 8) gaps (run 0 8).int { model := gapsModel } = .ok ([11, 12] : List Int64)
      (final (nestedLoops (run 0 8) gaps (run 0 8).int) { model := gapsModel }) := by cbv
  obtain ⟨_, hset, hloops⟩ :=
    comprehension_nested_loops 0 8 (s := { model := gapsModel }) (e := ⟨12⟩) rfl loopable_gaps
  obtain ⟨set, hs⟩ := hloops _ _ hvs
  obtain ⟨vs, hv, hmem⟩ := hset set _ hs
  cases hvs.symm.trans hv
  exact ⟨loopable_gaps, set, _, hs, hmem⟩

-- `[(let {array[int] of int: a = [i | j in 1..1]} in [a[1]])[1] | i in 1..2]`
def staleModel : Model where
  exprs := #[{ kind := .int 1, ty := .parInt }, { kind := .int 2, ty := .parInt },
    { kind := .bin .range ⟨0⟩ ⟨1⟩ none }, { kind := .int 1, ty := .parInt }, { kind := .int 1, ty := .parInt },
    { kind := .bin .range ⟨3⟩ ⟨4⟩ none }, { kind := .ident "i" none },
    { kind := .comp ⟨⟨6⟩, [⟨[⟨0⟩], ⟨5⟩⟩], none, false⟩ }, { kind := .ident "a" none },
    { kind := .int 1, ty := .parInt }, { kind := .access ⟨8⟩ [⟨9⟩] }, { kind := .arrayLit [⟨10⟩] [(1, 1)] },
    { kind := .letIn ⟨[.decl ⟨1⟩], ⟨11⟩, [some ⟨7⟩]⟩ }, { kind := .int 1, ty := .parInt },
    { kind := .access ⟨12⟩ [⟨13⟩] }, { kind := .comp ⟨⟨14⟩, [⟨[⟨2⟩], ⟨2⟩⟩], none, false⟩ }]
  decls := #[{ name := "j", ti := ⟨0⟩ }, { name := "a", ti := ⟨2⟩, init := some ⟨7⟩ }, { name := "i", ti := ⟨3⟩ },
    { name := "x0", ti := ⟨4⟩, ty := .parInt }, { name := "x1", ti := ⟨5⟩, ty := .parInt }]
  typeInsts := #[{ ty := .parInt }, { ty := .parInt }, { ty := Ty.parInt.withDim 1, ranges := [⟨1⟩] },
    { ty := .parInt }, { ty := .parInt }, { ty := .parInt }, { ty := .parSetInt }]
  funcs := #[{ name := "..", params := [⟨3⟩, ⟨4⟩], ret := ⟨6⟩ }]
  overloads := [("int2float", []), ("..", [⟨0⟩])]

def staleTyped : Model := final (checkExpr ⟨15⟩) staleModel

-- The array is first read outside of its let, and keeps the value of that turn. By itself the body
-- has the value of its name, 1 where that is 1 and 2 where that is 2.
theorem array_outlives_turn :
    check { library := false } staleModel = .ok ⟨[], []⟩ staleModel ∧
      checkExpr ⟨15⟩ staleModel = .ok (Ty.parInt.withDim 1) staleTyped ∧
      (staleTyped.evaluate (.value .array) ⟨15⟩).1 = .ok (⟨23⟩ : ExprId) ∧
      (staleTyped.evaluate (.value .array) ⟨15⟩).2.kind ⟨23⟩ = .arrayLit [⟨21⟩, ⟨22⟩] [(1, 2)] ∧
      (staleTyped.evaluate (.value .array) ⟨15⟩).2.kind ⟨21⟩ = .int 1 ∧
      (staleTyped.evaluate (.value .array) ⟨15⟩).2.kind ⟨22⟩ = .int 1 ∧
      ((staleTyped.setInit ⟨2⟩ (some ⟨0⟩)).evaluate (.value .int) ⟨14⟩).1 = .ok (1 : Int64) ∧
      ((staleTyped.setInit ⟨2⟩ (some ⟨1⟩)).evaluate (.value .int) ⟨14⟩).1 = .ok (2 : Int64) :=
  ⟨by cbv, by cbv, by cbv, by cbv, by cbv, by cbv, by cbv, by cbv⟩

end Examples
end Parvar
