import Parvar.Proofs.Eval.Framing
import Parvar.Proofs.Eval.Mirror
import Parvar.Proofs.IntSet.Membership
import Parvar.Typing.Check

/-!
The domains of parameters. A fixed parameter with a domain of integers takes a value all of whose integers lie in that
domain; a call is refused in the name of the first parameter for which one does not, and no parameter is refused
otherwise. This holds of integers, sets and arrays of integers. An array of sets is read as one of integers.
-/

namespace Parvar

open Eval EvalM Machine

namespace Model

section Values

variable (m : Model)

def IsNumber (e : ExprId) (n : Int64) : Prop := m.kind e = .int n ∧ (m.ty e).isBool = false

-- The integers that a value of a declared type is made of.
inductive Consists (ty : Ty) (v : ExprId) : List Int64 → Prop
  | int {n} (scalar : ty.dim = 0) (plain : ty.isSet = false) (value : m.IsNumber v n) : Consists ty v [n]
  | set {s} (scalar : ty.dim = 0) (set : ty.isSet) (value : m.kind v = .intSet s) : Consists ty v s.values
  | array {es dims ns} (array : 0 < ty.dim) (plain : ty.isSet = false) (value : m.kind v = .arrayLit es dims)
      (elems : List.Forall₂ m.IsNumber es ns) : Consists ty v ns

-- A fixed parameter with a domain of integers.
structure Restricts (p : DeclId) (e : ExprId) : Prop where
  domain : m.domain p = some e
  base : (m.decl p).ty.base = .int
  fixed : (m.decl p).ty.isPar
  known : (m.kind e).isTypeVar = false

-- The parameters of a function are local names of their own.
structure OwnsParams (f : FuncId) : Prop where
  nodup : (m.func f).params.Nodup
  present : ∀ p ∈ (m.func f).params, p.index < m.decls.size
  passing : ∀ p ∈ (m.func f).params, (m.decl p).toplevel = false

end Values
end Model

-- A parameter by its name, the integers it is given and those it takes.
structure Trial where
  name : String
  given : List Int64
  domain : IntSet

def Trial.Inside (x : Trial) : Prop := ∀ n ∈ x.given, x.domain.contains n

-- Parameters with their arguments, and what becomes of their domains when these are evaluated in turn. A parameter that
-- is restricted in another way passes. The value of an array may have been kept, but not in another form.
inductive Examined (ev : Eval) (span : Span) : Machine → List (DeclId × ExprId) → List Trial → Machine → Prop
  | nil {s} : Examined ev span s [] [] s
  | other {s t u p v ps xs} (passes : checkParam ev span p s = .ok ⟨⟩ t) (rest : Examined ev span t ps xs u) :
      Examined ev span s ((p, v) :: ps) xs u
  | domain {s t u p e v ps xs ns D} (restricts : s.model.Restricts p e)
      (value : s.model.Consists (s.model.decl p).ty v ns)
      (held : 0 < (s.model.decl p).ty.dim → (s.model.decl p).init = some v)
      (evaluates : ev.intSet e s = .ok D t) (rest : Examined ev span t ps xs u) :
      Examined ev span s ((p, v) :: ps) (⟨(s.model.decl p).name, ns, D⟩ :: xs) u

section Literals

variable {m m' : Model} {s t : Machine} {e : ExprId} {limit fuel : Nat}

theorem Model.IsNumber.mono {n : Int64} (h : m.IsNumber e n) (hg : m.Grows m') : m'.IsNumber e n := by
  have he : e.index < m.exprs.size := Model.lt_of_kind_ne_anon (by simp [h.1])
  rw [IsNumber, hg.kind_eq he, Model.ty, hg.expr_eq he]
  exact h

theorem run_int {n : Int64} (h : s.model.IsNumber e n) : (run limit (fuel + 1)).int e s = .ok n s := by
  have hty : fromSmaller? (run limit fuel) .int (s.model.ty e) e = none := by simp [fromSmaller?, h.2]
  rw [Eval.int, run, step, valueStep_eq hty, h.1]
  rfl

theorem run_intSet {S : IntSet} (h : s.model.kind e = .intSet S) : (run limit (fuel + 1)).intSet e s = .ok S s := by
  rw [Eval.intSet, run, step, valueStep_eq rfl, h]
  rfl

theorem arrayElems_run {es : List ExprId} {dims : Dims} (h : s.model.kind e = .arrayLit es dims) :
    arrayElems (run limit (fuel + 1)) e s = .ok (es, dims) s := by
  have ha : (run limit (fuel + 1)).array e s = .ok e s := by
    rw [Eval.array, run, step, valueStep_eq rfl, h]
    rfl
  simp [arrayElems, ha, h]

theorem Model.Consists.present {ty : Ty} {ns : List Int64} (h : m.Consists ty e ns) : (m.kind e).isAbsent = false := by
  cases h with
  | int _ _ value => rw [value.1]; rfl
  | set _ _ value => rw [value]; rfl
  | array _ _ value => rw [value]; rfl

end Literals

namespace Eval

variable {s t : Machine} {limit fuel : Nat} {span : Span} {p : DeclId} {e v : ExprId} {ns : List Int64} {D : IntSet}

-- Every value is tested, and in the end it is known whether all of them passed.
theorem allOf_eq_ok {α : Type} {test : ExprId → EvalM Bool} {inside : α → Bool} {vs : List ExprId} {as : List α}
    (h : List.Forall₂ (fun v a => test v s = .ok (inside a) s) vs as) :
    allOf vs test s = .ok (as.all inside) s := by
  suffices hall : ∀ ok : Bool, (vs.foldlM (fun ok v => return (← test v) && ok) ok : EvalM Bool) s =
      .ok (as.all inside && ok) s by
    rw [allOf, hall, Bool.and_true]
  induction h with
  | nil => exact fun ok => rfl
  | @cons v a vs as ha _ ih =>
    intro ok
    rw [List.foldlM_cons, bind_eq_ok]
    refine ⟨inside a && ok, s, bind_eq_ok.mpr ⟨inside a, s, ha, rfl⟩, ?_⟩
    rw [ih, List.all_cons, Bool.and_left_comm, Bool.and_assoc]

-- What is tested against a domain, whatever has been added to the model meanwhile.
theorem tests_of_consists {ty : Ty} (limit fuel : Nat) (h : s.model.Consists ty v ns) :
    ∃ vs, domainValues (run limit (fuel + 1)) ty v s = .ok vs s ∧ ∀ t D, s.model.Grows t.model →
      (allOf vs fun v => do
        if ty.isSetTy then return (← (run limit (fuel + 1)).intSet v).subset D
        return D.contains (← (run limit (fuel + 1)).int v)) t = .ok (ns.all D.contains) t := by
  cases h with
  | @int n scalar plain value =>
    refine ⟨[v], by simp [domainValues, scalar], fun t D hg => allOf_eq_ok (.cons ?_ .nil)⟩
    simp [Ty.isSetTy, plain, run_int (value.mono hg)]
  | @set S scalar set value =>
    refine ⟨[v], by simp [domainValues, scalar], fun t D hg => ?_⟩
    have he : v.index < s.model.exprs.size := Model.lt_of_kind_ne_anon (by simp [value])
    have hall : S.values.all D.contains = [S].all fun S => S.subset D := by
      rw [Bool.eq_iff_iff]
      simp [IntSet.subset_iff, IntSet.mem_values]
    rw [hall]
    refine allOf_eq_ok (.cons ?_ .nil)
    simp [Ty.isSetTy, scalar, set, run_intSet ((hg.kind_eq he).trans value)]
  | @array es dims ns array plain value elems =>
    refine ⟨es, by simp [domainValues, array, arrayElems_run value], fun t D hg => allOf_eq_ok ?_⟩
    refine elems.imp fun e n he => ?_
    simp [Ty.isSetTy, plain, run_int (he.mono hg)]

-- A parameter is refused exactly if one of its integers is outside.
theorem checkParam_eq (span : Span) (hr : s.model.Restricts p e) (hc : s.model.Consists (s.model.decl p).ty v ns)
    (hv : (s.model.decl p).init = some v) (hD : (run limit (fuel + 1)).intSet e s = .ok D t) :
    checkParam (run limit (fuel + 1)) span p s = if ns.all D.contains then .ok ⟨⟩ t
      else .error (.failed ⟨.outOfDomain (s.model.decl p).name, span, #[]⟩) t := by
  obtain ⟨vs, hvs, htests⟩ := tests_of_consists limit fuel hc
  have hg : s.model.Grows t.model := ((framing_run limit (fuel + 1) [] _ e).of_ok hD).grows
  simp only [checkParam, model_bind, hr.domain, hv, hr.fixed, hr.known, hc.present]
  simp only [Bool.not_false, Bool.and_true, if_true]
  have hinside : inside (run limit (fuel + 1)) (s.model.decl p).ty e vs s = .ok (ns.all D.contains) t := by
    simp only [inside, model_bind, hr.base]
    exact bind_eq_ok.mpr ⟨D, t, hD, htests t D hg⟩
  rw [bind_of_ok hvs, bind_of_ok hinside]
  cases ns.all D.contains <;> rfl

-- The end of a call: what its parameters held before is put back.
def leave {α : Type} (saved : List Saved) :
    EStateM.Result (Halt EvalError) Machine α → EStateM.Result (Halt EvalError) Machine α
  | .ok a s => .ok a (restoreAll saved { s with depth := s.depth - 1 })
  | .error h s => .error h (restoreAll saved { s with depth := s.depth - 1 })

-- The state in which the parameters of a call are checked.
def entered (s : Machine) (ps : List (DeclId × ExprId)) : Machine :=
  let t := bindAll s (ps.map fun b => (b.1, some b.2))
  { t with depth := t.depth + 1 }

theorem restoring_deeper {α : Type} {saved : List Saved} {x : EvalM α} :
    restoring saved (deeper x) s = leave saved (x { s with depth := s.depth + 1 }) := by
  simp only [restoring, deeper]
  cases x { s with depth := s.depth + 1 } <;> rfl

theorem mapM_bind_params (ps : List (DeclId × ExprId)) (s : Machine) :
    ∃ saved, (ps.mapM fun (p, v) => bind p (some v) : EvalM (List Saved)) s =
      .ok saved (bindAll s (ps.map fun b => (b.1, some b.2))) := by
  obtain ⟨saved, h, -⟩ := mapM_bind (ps.map fun b => (b.1, some b.2)) s
  rw [List.mapM_map] at h
  exact ⟨saved, h⟩

-- A call whose arguments have values checks its parameters and goes on with its body.
theorem call_eq {α : Type} {ev : Eval} {f : FuncId} {args values : List ExprId} {body : ExprId} {u : Machine}
    (span : Span) (go : ExprId → EvalM α) (hbody : (s.model.func f).body = some body)
    (harity : (s.model.func f).params.length = args.length) (hdepth : s.depth < limit)
    (hargs : args.mapM ev.residual s = .ok values u) :
    ∃ saved, call ev limit f args span go s = leave saved ((do
      (s.model.func f).params.forM (checkParam ev span)
      go (← detach ev body)) (entered u ((s.model.func f).params.zip values))) := by
  obtain ⟨saved, hsaved⟩ := mapM_bind_params ((s.model.func f).params.zip values) u
  refine ⟨saved, ?_⟩
  simp only [call, model_bind, hbody, harity, ne_eq, not_true_eq_false, if_false, get_bind, Nat.not_le.mpr hdepth]
  rw [bind_of_ok hargs, bind_of_ok hsaved, restoring_deeper]
  rfl

end Eval

section Parameters

variable {s t u : Machine} {limit fuel : Nat} {span : Span} {p : DeclId} {v : ExprId} {ps : List (DeclId × ExprId)}
  {xs : List Trial} {x y : Trial}

-- A parameter holds its argument, which for an array may be kept in another form.
def Machine.Gives (s : Machine) (p : DeclId) (v : ExprId) : Prop :=
  (s.model.decl p).toplevel = false ∧ ((s.model.decl p).ty.dim ≤ 0 → (s.model.decl p).init = some v)

theorem Machine.Gives.framed (h : s.Gives p v) (hf : Framed [] s t) : t.Gives p v := by
  have hr := hf.rebound p
  have htop : (t.model.decl p).toplevel = (s.model.decl p).toplevel := by rw [hr]
  have hty : (t.model.decl p).ty = (s.model.decl p).ty := by rw [hr]
  refine ⟨htop.trans h.1, fun hd => ?_⟩
  rw [hty] at hd
  exact ((hf.kept p List.not_mem_nil).same_of_passing h.1 hd).1.trans (h.2 hd)

-- The first of the parameters whose value is outside.
def FirstOutside (xs : List Trial) (x : Trial) : Prop :=
  ∃ before after, xs = before ++ x :: after ∧ (∀ y ∈ before, y.Inside) ∧ ¬x.Inside

theorem firstOutside_cons (hy : y.Inside) : FirstOutside (y :: xs) x ↔ FirstOutside xs x := by
  constructor
  · rintro ⟨before, after, h, hbefore, hx⟩
    cases before with
    | nil =>
      cases h
      exact absurd hy hx
    | cons b before =>
      cases h
      exact ⟨before, after, rfl, (List.forall_mem_cons.mp hbefore).2, hx⟩
  · rintro ⟨before, after, rfl, hbefore, hx⟩
    exact ⟨y :: before, after, rfl, List.forall_mem_cons.mpr ⟨hy, hbefore⟩, hx⟩

theorem FirstOutside.mem (h : FirstOutside xs x) : x ∈ xs := by
  obtain ⟨before, after, rfl, -, -⟩ := h
  exact List.mem_append_right _ List.mem_cons_self

theorem Trial.inside_iff : x.Inside ↔ x.given.all x.domain.contains := List.all_eq_true.symm

-- The parameters are checked one after the other, up to the first that is refused.
theorem Examined.outcome (h : Examined (run limit (fuel + 1)) span s ps xs t) (hp : ∀ b ∈ ps, s.Gives b.1 b.2) :
    (∀ x ∈ xs, x.Inside) ∧ (ps.map (·.1)).forM (checkParam (run limit (fuel + 1)) span) s = .ok ⟨⟩ t ∨
    ∃ x t', FirstOutside xs x ∧ (ps.map (·.1)).forM (checkParam (run limit (fuel + 1)) span) s =
      .error (.failed ⟨.outOfDomain x.name, span, #[]⟩) t' := by
  induction h with
  | nil => exact .inl ⟨by simp, rfl⟩
  | @other s t u p v ps xs passes rest ih =>
    have hf : Framed [] s t := ((framing_run limit (fuel + 1)).checkParam span p).of_ok passes
    have hrest : ∀ b ∈ ps, t.Gives b.1 b.2 := fun b hb => (hp b (List.mem_cons_of_mem _ hb)).framed hf
    rw [List.map_cons, List.forM, bind_of_ok passes]
    exact ih hrest
  | @domain s t u p e v ps xs ns D restricts value held evaluates rest ih =>
    have hf : Framed [] s t := (framing_run limit (fuel + 1) [] _ e).of_ok evaluates
    have hrest : ∀ b ∈ ps, t.Gives b.1 b.2 := fun b hb => (hp b (List.mem_cons_of_mem _ hb)).framed hf
    have hv : (s.model.decl p).init = some v := by
      by_cases hd : 0 < (s.model.decl p).ty.dim
      · exact held hd
      · exact (hp _ List.mem_cons_self).2 (Int.not_lt.mp hd)
    have hcheck := checkParam_eq span restricts value hv evaluates
    rw [List.map_cons, List.forM]
    by_cases hin : ns.all D.contains
    · rw [if_pos hin] at hcheck
      have hx : Trial.Inside ⟨(s.model.decl p).name, ns, D⟩ := Trial.inside_iff.mpr hin
      rw [bind_of_ok hcheck]
      obtain ⟨hall, hok⟩ | ⟨x, t', hfirst, herr⟩ := ih hrest
      · exact .inl ⟨List.forall_mem_cons.mpr ⟨hx, hall⟩, hok⟩
      · exact .inr ⟨x, t', (firstOutside_cons hx).mpr hfirst, herr⟩
    · rw [if_neg hin] at hcheck
      refine .inr ⟨_, t, ⟨[], xs, rfl, by simp, mt Trial.inside_iff.mp hin⟩, ?_⟩
      exact bind_eq_error.mpr (.inl hcheck)

theorem gives_entered {f : FuncId} {values : List ExprId} (hf : s.model.OwnsParams f) (hu : Framed [] s u)
    (hlen : (s.model.func f).params.length = values.length) :
    ∀ b ∈ (s.model.func f).params.zip values, (entered u ((s.model.func f).params.zip values)).Gives b.1 b.2 := by
  intro b hb
  have hmem := (List.of_mem_zip hb).1
  let bs := ((s.model.func f).params.zip values).map fun b => (b.1, some b.2)
  have hnames : bs.map (·.1) = (s.model.func f).params := by
    rw [List.map_map]
    exact List.map_fst_zip hlen.le
  have hbs : (b.1, some b.2) ∈ bs := List.mem_map_of_mem hb
  have hr := (framed_bindAll bs u).rebound b.1
  have htop : ((bindAll u bs).model.decl b.1).toplevel = (s.model.decl b.1).toplevel := by rw [hr, hu.rebound b.1]
  refine ⟨htop.trans (hf.passing _ hmem), fun _ => ?_⟩
  exact (decl_bindAll_of_mem (hnames ▸ hf.nodup) hbs (hu.size ▸ hf.present _ hmem)).1

-- A call whose arguments have values is refused in the name of the first parameter that is given an integer outside of
-- its domain; where there is none, no parameter is refused and the call goes on.
theorem domains_enforced {α : Type} {f : FuncId} {args values : List ExprId} {body : ExprId} {go : ExprId → EvalM α}
    (hbody : (s.model.func f).body = some body) (harity : (s.model.func f).params.length = args.length)
    (hdepth : s.depth < limit) (hf : s.model.OwnsParams f)
    (hargs : args.mapM (run limit (fuel + 1)).residual s = .ok values u)
    (hps : (s.model.func f).params.zip values = ps)
    (hx : Examined (run limit (fuel + 1)) span (entered u ps) ps xs t) :
    (∀ x ∈ xs, x.Inside) ∧
        (s.model.func f).params.forM (checkParam (run limit (fuel + 1)) span) (entered u ps) = .ok ⟨⟩ t ∧
        (∃ saved, call (run limit (fuel + 1)) limit f args span go s =
          leave saved ((do go (← detach (run limit (fuel + 1)) body)) t)) ∨
      ∃ x t', FirstOutside xs x ∧ call (run limit (fuel + 1)) limit f args span go s =
        .error (.failed ⟨.outOfDomain x.name, span, #[]⟩) t' := by
  subst hps
  have hu : Framed [] s u := (Keeps.mapM fun a _ => framing_run limit (fuel + 1) [] _ a).of_ok hargs
  have hvalues : List.Forall₂ (fun _ _ => True) args values :=
    (mapM_eq_ok (P := fun _ => True) (by intros; exact ⟨trivial, trivial⟩) trivial hargs).2
  have hlen : (s.model.func f).params.length = values.length := harity.trans hvalues.length_eq
  obtain ⟨saved, hcall⟩ := call_eq span go hbody harity hdepth hargs
  have hcheck := hx.outcome (gives_entered hf hu hlen)
  rw [List.map_fst_zip hlen.le] at hcheck
  obtain ⟨hall, hok⟩ | ⟨x, t', hfirst, herr⟩ := hcheck
  · exact .inl ⟨hall, hok, saved, by rw [hcall, bind_of_ok hok]⟩
  · exact .inr ⟨x, _, hfirst, hcall.trans (congrArg (leave saved) (bind_eq_error.mpr (.inl herr)))⟩

end Parameters

section Samples

-- `function int: f(1..3: n, set of 1..n: s, array[int] of 1..3: a) = n;` beside `2`, `1..2` and `[3, 4]`.
def rangeModel : Model where
  exprs := #[{ kind := .int 1, ty := .parInt }, { kind := .int 3, ty := .parInt },
    { kind := .bin .range ⟨0⟩ ⟨1⟩ none, ty := .parSetInt }, { kind := .ident "n" (some ⟨0⟩), ty := .parInt },
    { kind := .bin .range ⟨0⟩ ⟨3⟩ none, ty := .parSetInt }, { kind := .int 2, ty := .parInt },
    { kind := .intSet (.range 1 2), ty := .parSetInt }, { kind := .int 4, ty := .parInt },
    { kind := .arrayLit [⟨1⟩, ⟨7⟩] [(1, 2)], ty := Ty.parInt.withDim 1 }]
  decls := #[{ name := "n", ti := ⟨0⟩, ty := .parInt }, { name := "s", ti := ⟨1⟩, ty := .parSetInt },
    { name := "a", ti := ⟨2⟩, ty := Ty.parInt.withDim 1 }]
  typeInsts := #[{ ty := .parInt, domain := some ⟨2⟩ }, { ty := .parSetInt, domain := some ⟨4⟩ },
    { ty := Ty.parInt.withDim 1, ranges := [⟨3⟩], domain := some ⟨2⟩ }, { ty := .parInt }]
  funcs := #[{ name := "f", params := [⟨0⟩, ⟨1⟩, ⟨2⟩], ret := ⟨3⟩, body := some ⟨3⟩ }]

-- The same with the values of the arguments.
def rangeValues : Machine where
  model := { rangeModel with
    exprs := rangeModel.exprs ++ #[{ kind := .int 2, ty := .parInt }, { kind := .intSet (.range 1 2), ty := .parSetInt },
      { kind := .int 3, ty := .parInt }, { kind := .int 4, ty := .parInt },
      { kind := .arrayLit [⟨11⟩, ⟨12⟩] [(1, 2)], ty := Ty.parInt.withDim 1 }] }

def rangeParams : List (DeclId × ExprId) := [(⟨0⟩, ⟨9⟩), (⟨1⟩, ⟨10⟩), (⟨2⟩, ⟨13⟩)]

theorem rangeModel_examined :
    Examined (run 9 9) {} (entered rangeValues rangeParams) rangeParams
      [⟨"n", [2], .range 1 3⟩, ⟨"s", (IntSet.range 1 2).values, .range 1 2⟩, ⟨"a", [3, 4], .range 1 3⟩]
      (entered rangeValues rangeParams) := by
  have hn : (entered rangeValues rangeParams).model.Consists .parInt ⟨9⟩ [2] := .int rfl rfl ⟨rfl, rfl⟩
  have hs : (entered rangeValues rangeParams).model.Consists .parSetInt ⟨10⟩ (IntSet.range 1 2).values :=
    .set rfl rfl rfl
  have ha : (entered rangeValues rangeParams).model.Consists (Ty.parInt.withDim 1) ⟨13⟩ [3, 4] :=
    .array (by decide) rfl rfl (.cons ⟨rfl, rfl⟩ (.cons ⟨rfl, rfl⟩ .nil))
  refine .domain (e := ⟨2⟩) ⟨rfl, rfl, rfl, rfl⟩ hn (fun _ => rfl) rfl ?_
  refine .domain (e := ⟨4⟩) ⟨rfl, rfl, rfl, rfl⟩ hs (fun _ => rfl) rfl ?_
  exact .domain (e := ⟨2⟩) ⟨rfl, rfl, rfl, rfl⟩ ha (fun _ => rfl) rfl .nil

-- The number and the set are inside, and the array has one element that is not.
theorem domains_enforced_array : rangeModel.OwnsParams ⟨0⟩ ∧
    Examined (run 9 9) {} (entered rangeValues rangeParams) rangeParams
      [⟨"n", [2], .range 1 3⟩, ⟨"s", (IntSet.range 1 2).values, .range 1 2⟩, ⟨"a", [3, 4], .range 1 3⟩]
      (entered rangeValues rangeParams) ∧
    ∃ t, call (run 9 9) 9 ⟨0⟩ [⟨5⟩, ⟨6⟩, ⟨8⟩] {} (run 9 9).int { model := rangeModel } =
      .error (.failed ⟨.outOfDomain "a", {}, #[]⟩) t := by
  have howns : rangeModel.OwnsParams ⟨0⟩ := ⟨by decide, by decide, by decide⟩
  have hn : Trial.Inside ⟨"n", [2], .range 1 3⟩ := by simp [Trial.Inside, IntSet.contains_range]
  have hs : Trial.Inside ⟨"s", (IntSet.range 1 2).values, .range 1 2⟩ := fun n => IntSet.mem_values.mp
  have ha : ¬Trial.Inside ⟨"a", [3, 4], .range 1 3⟩ := by simp [Trial.Inside, IntSet.contains_range]
  refine ⟨howns, rangeModel_examined, ?_⟩
  have hcalls : _ ∨ ∃ x t, FirstOutside _ x ∧
      call (run 9 9) 9 ⟨0⟩ [⟨5⟩, ⟨6⟩, ⟨8⟩] {} (run 9 9).int { model := rangeModel } =
        .error (.failed ⟨.outOfDomain x.name, {}, #[]⟩) t :=
    domains_enforced rfl rfl (by decide) howns rfl rfl rangeModel_examined
  obtain ⟨h, -⟩ | ⟨x, t, hfirst, hcall⟩ := hcalls
  · exact absurd (h _ (by simp)) ha
  · rw [firstOutside_cons hn, firstOutside_cons hs] at hfirst
    rw [List.mem_singleton.mp hfirst.mem] at hcall
    exact ⟨t, hcall⟩

-- `function int: f(array[int] of set of 1..3: a) = 1;` beside the call `f([{1}])`.
def setsModel (range array call : Expr) (ty : Ty) : Model where
  exprs := #[{ kind := .int 1, ty := .parInt }, { kind := .int 3, ty := .parInt }, range,
    { kind := .intSet (.range 1 1), ty := .parSetInt }, array, call]
  decls := #[{ name := "a", ti := ⟨0⟩, ty }, { name := "x0", ti := ⟨1⟩, ty := .parInt },
    { name := "x1", ti := ⟨1⟩, ty := .parInt }]
  typeInsts := #[{ ty := Ty.parSetInt.withDim 1, ranges := [⟨1⟩], domain := some ⟨2⟩ }, { ty := .parInt },
    { ty := .parSetInt }]
  funcs := #[{ name := "..", params := [⟨1⟩, ⟨2⟩], ret := ⟨2⟩ },
    { name := "f", params := [⟨0⟩], ret := ⟨1⟩, body := some ⟨0⟩ }]
  items := #[{ item := .func ⟨1⟩ }]
  overloads := [("int2float", []), ("..", [⟨0⟩]), ("f", [⟨1⟩])]

def setsArray (ty : Ty) : Expr := { kind := .arrayLit [⟨3⟩] [(1, 1)], ty }

def setsCall (f : Option FuncId) (ty : Ty) : Expr := { kind := .call "f" [⟨4⟩] f, ty }

def setsChecked (array call : Expr) : Model :=
  setsModel { kind := .bin .range ⟨0⟩ ⟨1⟩ none, ty := .parSetInt } array call (Ty.parSetInt.withDim 1)

def setsTyped : Model := setsChecked (setsArray (Ty.parSetInt.withDim 1)) (setsCall (some ⟨1⟩) .parInt)

-- The one set of the array lies in the domain, and it is read as an integer.
theorem array_of_sets_refused : (IntSet.range 1 1).subset (.range 1 3) ∧
    check { library := false } (setsModel { kind := .bin .range ⟨0⟩ ⟨1⟩ none } (setsArray .unknown)
        (setsCall none .unknown) .unknown) =
      .ok ⟨[], [⟨0⟩]⟩ (setsChecked (setsArray .unknown) (setsCall none .unknown)) ∧
      checkExpr ⟨5⟩ (setsChecked (setsArray .unknown) (setsCall none .unknown)) = .ok .parInt setsTyped ∧
      (setsTyped.evaluate (.value .int) ⟨5⟩).1 = .error (.failed ⟨.notOf .int, {}, #[⟨{}, .call "f"⟩]⟩) :=
  ⟨by cbv, by cbv, by cbv, by cbv⟩

end Samples
end Parvar
