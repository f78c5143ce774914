import Parvar.Proofs.Eval.Success
import Parvar.Typing.Check

/-! Models that are accepted and evaluate to what nobody would expect. -/

namespace Parvar

open Model Eval EvalM

section Kinds

-- The expression `1 = "a"`, and the equality of all that there is.
def unlikeModel (same : Expr) : Model where
  exprs := #[{ kind := .int 1, ty := .parInt }, { kind := .string "a", ty := .parString }, same,
    { kind := .typeVar "T", ty := .top }, { kind := .typeVar "T", ty := .top }]
  decls := #[{ name := "x0", ti := ⟨0⟩, ty := Ty.top.withOpt true },
    { name := "x1", ti := ⟨1⟩, ty := Ty.top.withOpt true }]
  typeInsts := #[{ ty := Ty.top.withOpt true, domain := some ⟨3⟩ },
    { ty := Ty.top.withOpt true, domain := some ⟨4⟩ }, { ty := .parBool }]
  funcs := #[{ name := "=", params := [⟨0⟩, ⟨1⟩], ret := ⟨2⟩ }]
  overloads := [("int2float", []), ("=", [⟨0⟩])]

def unlikeTyped : Model := unlikeModel { kind := .bin .eq ⟨0⟩ ⟨1⟩ none, ty := .parBool }

-- Values of unlike types may be compared, and then have no comparison.
theorem unlike_values_compared :
    check { library := false } (unlikeModel { kind := .bin .eq ⟨0⟩ ⟨1⟩ none }) =
        .ok ⟨[], []⟩ (unlikeModel { kind := .bin .eq ⟨0⟩ ⟨1⟩ none }) ∧
      checkExpr ⟨2⟩ (unlikeModel { kind := .bin .eq ⟨0⟩ ⟨1⟩ none }) = .ok .parBool unlikeTyped ∧
      (unlikeTyped.evaluate (.value .bool) ⟨2⟩).1 = .error (.failed ⟨.notOf .bool, {}, #[]⟩) :=
  ⟨by cbv, by cbv, by cbv⟩

end Kinds

section Memory

def pairTy : Ty := Ty.parInt.withDim 1

-- `array[int] of int: a = [1, 2];` beside two uses of the name.
def pairModel (a first second : Expr) (ty : Ty) : Model where
  exprs := #[{ kind := .int 1, ty := .parInt }, { kind := .int 2, ty := .parInt }, a, first, second]
  decls := #[{ name := "a", ti := ⟨1⟩, init := some ⟨2⟩, ty, toplevel := true }]
  typeInsts := #[{ ty := .parInt }, { ty := pairTy, ranges := [⟨0⟩] }]
  items := #[{ item := .decl ⟨0⟩ }]
  overloads := [("int2float", [])]

def pairUse : Expr := { kind := .ident "a" none }

def pairUsed : Expr := { kind := .ident "a" (some ⟨0⟩), ty := pairTy }

def pairChecked (first second : Expr) : Model :=
  pairModel { kind := .arrayLit [⟨0⟩, ⟨1⟩] [(1, 2)], ty := pairTy } first second pairTy

def pairTyped : Model := pairChecked pairUsed pairUsed

-- An array that was evaluated as a set is kept as a set.
theorem memory_changes_array :
    check { library := false } (pairModel { kind := .arrayLit [⟨0⟩, ⟨1⟩] [(1, 2)] } pairUse pairUse .unknown) =
        .ok ⟨[], [⟨0⟩]⟩ (pairChecked pairUse pairUse) ∧
      checkExpr ⟨3⟩ (pairChecked pairUse pairUse) = .ok pairTy (pairChecked pairUsed pairUse) ∧
      checkExpr ⟨4⟩ (pairChecked pairUsed pairUse) = .ok pairTy pairTyped ∧
      (pairTyped.evaluate (.value .array) ⟨4⟩).1 = .ok (⟨2⟩ : ExprId) ∧
      (pairTyped.evaluate (.value .intSet) ⟨3⟩).1 = .ok (.range 1 2 : IntSet) ∧
      ((pairTyped.evaluate (.value .intSet) ⟨3⟩).2.evaluate (.value .array) ⟨4⟩).1 =
        .error (.failed ⟨.notOf .array, {}, #[⟨{}, .ident "a"⟩]⟩) :=
  ⟨by cbv, by cbv, by cbv, by cbv, by cbv, by cbv⟩

end Memory

section Residuals

-- `var set of 3..3: s;` beside a use of the name, and a set that may be assigned to it.
def singleModel (use : Expr) (range ty : Ty) (init : Option ExprId) : Model where
  exprs := #[{ kind := .int 3, ty := .parInt }, { kind := .int 3, ty := .parInt },
    { kind := .bin .range ⟨0⟩ ⟨1⟩ none, ty := range }, use,
    { kind := .intSet (.range 3 3), ty := .parSetInt }]
  decls := #[{ name := "s", ti := ⟨0⟩, init, ty, toplevel := true },
    { name := "x0", ti := ⟨1⟩, ty := .parInt }, { name := "x1", ti := ⟨2⟩, ty := .parInt }]
  typeInsts := #[{ ty := .varSetInt, domain := some ⟨2⟩ }, { ty := .parInt }, { ty := .parInt },
    { ty := .parSetInt }]
  funcs := #[{ name := "..", params := [⟨1⟩, ⟨2⟩], ret := ⟨3⟩ }]
  items := #[{ item := .decl ⟨0⟩ }]
  overloads := [("int2float", []), ("..", [⟨0⟩])]

def singleUse : Expr := { kind := .ident "s" none }

def singleUsed : Expr := { kind := .ident "s" (some ⟨0⟩), ty := .varSetInt }

def singleChecked (use : Expr) : Option ExprId → Model := singleModel use .parSetInt .varSetInt

-- A set inside of a domain of one element is taken for that element.
theorem element_replaces_set :
    check { library := false } (singleModel singleUse .unknown .unknown none) =
        .ok ⟨[], [⟨0⟩]⟩ (singleChecked singleUse none) ∧
      checkExpr ⟨3⟩ (singleChecked singleUse none) = .ok .varSetInt (singleChecked singleUsed none) ∧
      ((singleChecked singleUsed none).evaluate .residual ⟨3⟩).1 = .ok (⟨0⟩ : ExprId) ∧
      ((singleChecked singleUsed (some ⟨4⟩)).evaluate (.value .intSet) ⟨3⟩).1 = .ok (.range 3 3 : IntSet) ∧
      ((singleChecked singleUsed (some ⟨4⟩)).evaluate (.value .intSet) ⟨0⟩).1 =
        .error (.failed ⟨.notOf .intSet, {}, #[]⟩) :=
  ⟨by cbv, by cbv, by cbv, by cbv, by cbv⟩

end Residuals

section Circles

-- `var int: x; var int: y = x + 1;` where `y` stands in for `x`, beside a use of `y`.
def loopModel (x sum use : Expr) (ty : Ty) : Model where
  exprs := #[x, { kind := .int 1, ty := .parInt }, sum, use]
  decls := #[{ name := "x", ti := ⟨0⟩, ty, toplevel := true, flat := some ⟨1⟩ },
    { name := "y", ti := ⟨1⟩, ty, init := some ⟨2⟩, toplevel := true },
    { name := "x0", ti := ⟨2⟩, ty := .varInt }, { name := "x1", ti := ⟨3⟩, ty := .varInt }]
  typeInsts := #[{ ty := .varInt }, { ty := .varInt }, { ty := .varInt }, { ty := .varInt }, { ty := .varInt }]
  funcs := #[{ name := "+", params := [⟨2⟩, ⟨3⟩], ret := ⟨4⟩ }]
  items := #[{ item := .decl ⟨0⟩ }, { item := .decl ⟨1⟩ }]
  overloads := [("int2float", []), ("+", [⟨0⟩])]

def loopChecked (use : Expr) : Model :=
  loopModel { kind := .ident "x" (some ⟨0⟩), ty := .varInt }
    { kind := .bin .add ⟨0⟩ ⟨1⟩ none, ty := .varInt } use .varInt

def loopTyped : Model := loopChecked { kind := .ident "y" (some ⟨1⟩), ty := .varInt }

variable {α β : Type} {s t : Machine}

theorem bind_outOfFuel {x : EvalM α} {f : α → EvalM β} (h : x s = .error .outOfFuel t) :
    (x >>= f) s = .error .outOfFuel t := by
  simp only [Bind.bind, EStateM.bind, h]

theorem within_outOfFuel {x : EvalM α} {span : Span} {c : EvalError.Context}
    (h : x s = .error .outOfFuel t) : within span c x s = .error .outOfFuel t := by
  simp only [within, h, Halt.map]

theorem run_loop (limit fuel : Nat) {e : ExprId} (he : e ∈ [⟨0⟩, ⟨2⟩, ⟨3⟩]) :
    run limit fuel (.value .int) e { model := loopTyped } = .error .outOfFuel { model := loopTyped } := by
  induction fuel generalizing e with
  | zero => rfl
  | succ fuel ih =>
    have hx := ih (e := ⟨0⟩) (by simp)
    have hsum := ih (e := ⟨2⟩) (by simp)
    have hd : ∀ d, ((run limit fuel).value .int ⟨2⟩ >>= fun v => remember .int d v >>= fun _ => pure v)
        { model := loopTyped } = .error .outOfFuel { model := loopTyped } := fun d => bind_outOfFuel hsum
    simp only [List.mem_cons, List.not_mem_nil, or_false] at he
    obtain rfl | rfl | rfl := he
    · exact within_outOfFuel (hd ⟨1⟩)
    · show ((run limit fuel).int ⟨0⟩ >>= fun a => (run limit fuel).int ⟨1⟩ >>= fun b =>
        ofCause {} (intOp .add a b)) { model := loopTyped } = _
      exact bind_outOfFuel hx
    · exact within_outOfFuel (hd ⟨1⟩)

-- A declaration that stands in for another may depend on it.
theorem stand_in_closes_circle :
    check { library := false } (loopModel { kind := .ident "x" none } { kind := .bin .add ⟨0⟩ ⟨1⟩ none }
        { kind := .ident "y" none } .unknown) = .ok ⟨[], [⟨0⟩, ⟨1⟩]⟩ (loopChecked { kind := .ident "y" none }) ∧
      checkExpr ⟨3⟩ (loopChecked { kind := .ident "y" none }) = .ok .varInt loopTyped ∧
      ∀ limit fuel, run limit fuel (.value .int) ⟨3⟩ { model := loopTyped } =
        .error .outOfFuel { model := loopTyped } :=
  ⟨by cbv, by cbv, fun limit fuel => run_loop limit fuel (by simp)⟩

end Circles
end Parvar
