import Mathlib

/-!
Steps that read and change a state and may fail. `Keeps R x` says that every run of `x`, whether it
ends in a value or in an error, leads from a state to one that `R` relates to it. `Lasts x y` says
that `y` comes to all the values that `x` comes to, in the same states.
-/

namespace Parvar

variable {ε σ α β : Type}

theorem except_bind_eq_ok {x : Except ε α} {f : α → Except ε β} {b : β} :
    x >>= f = .ok b ↔ ∃ a, x = .ok a ∧ f a = .ok b := by
  cases x <;> simp [bind, Except.bind]

section Success

@[simp] theorem pure_eq_ok {a b : α} {s s' : σ} :
    (pure a : EStateM ε σ α) s = .ok b s' ↔ a = b ∧ s = s' := by
  simp [pure, EStateM.pure]

@[simp] theorem throw_ne_ok {h : ε} {b : α} {s s' : σ} :
    ((throw h : EStateM ε σ α) s = .ok b s') ↔ False := by
  simp [throw, throwThe, MonadExceptOf.throw, EStateM.throw]

@[simp] theorem get_eq_ok {b s s' : σ} :
    (get : EStateM ε σ σ) s = .ok b s' ↔ b = s ∧ s' = s := by
  simp [get, getThe, MonadStateOf.get, EStateM.get, eq_comm]

-- A sequence ends in a value if both of its steps do.
@[simp] theorem bind_eq_ok {x : EStateM ε σ α} {f : α → EStateM ε σ β} {b : β} {s s' : σ} :
    (x >>= f) s = .ok b s' ↔ ∃ a t, x s = .ok a t ∧ f a t = .ok b s' := by
  simp only [bind, EStateM.bind]
  cases x s <;> simp

-- It ends in an error if its first step does, or its second after the first.
theorem bind_eq_error {x : EStateM ε σ α} {f : α → EStateM ε σ β} {h : ε} {s s' : σ} :
    (x >>= f) s = .error h s' ↔ x s = .error h s' ∨ ∃ a t, x s = .ok a t ∧ f a t = .error h s' := by
  simp only [bind, EStateM.bind]
  cases x s <;> simp

-- It goes on where its first step ends.
theorem bind_of_ok {x : EStateM ε σ α} {f : α → EStateM ε σ β} {a : α} {s t : σ} (h : x s = .ok a t) :
    (x >>= f) s = f a t := by
  simp only [bind, EStateM.bind, h]

theorem seq_eq_ok {x : EStateM ε σ α} {y : EStateM ε σ β} {a : α} {b : β} {s t s' : σ}
    (hx : x s = .ok a t) (hy : y t = .ok b s') : (x >>= fun _ => y) s = .ok b s' :=
  bind_eq_ok.mpr ⟨a, t, hx, hy⟩

-- What is read is the state.
theorem get_bind (f : σ → EStateM ε σ α) (s : σ) : (get >>= f) s = f s s := rfl

@[simp] theorem map_eq_ok {x : EStateM ε σ α} {f : α → β} {b : β} {s s' : σ} :
    (f <$> x) s = .ok b s' ↔ ∃ a, x s = .ok a s' ∧ f a = b := by
  simp only [Functor.map, EStateM.map]
  cases x s <;> simp [and_comm]

end Success

section Keeps

-- The state in which a step ends.
def final (x : EStateM ε σ α) (s : σ) : σ :=
  match x s with
  | .ok _ s' => s'
  | .error _ s' => s'

theorem final_of_ok {x : EStateM ε σ α} {s s' : σ} {a : α} (h : x s = .ok a s') :
    final x s = s' := by
  simp [final, h]

theorem final_of_error {x : EStateM ε σ α} {s s' : σ} {h : ε} (hx : x s = .error h s') :
    final x s = s' := by
  simp [final, hx]

theorem final_bind_of_ok {x : EStateM ε σ α} {f : α → EStateM ε σ β} {s t : σ} {a : α}
    (h : x s = .ok a t) : final (x >>= f) s = final (f a) t := by
  simp [final, bind, EStateM.bind, h]

theorem final_bind_of_error {x : EStateM ε σ α} {f : α → EStateM ε σ β} {s t : σ} {e : ε}
    (h : x s = .error e t) : final (x >>= f) s = t := by
  simp [final, bind, EStateM.bind, h]

theorem final_bind_pure (x : EStateM ε σ α) (f : α → β) (s : σ) :
    final (x >>= fun a => pure (f a)) s = final x s := by
  simp only [final, bind, EStateM.bind, pure, EStateM.pure]
  cases x s <;> rfl

def Keeps (R : σ → σ → Prop) (x : EStateM ε σ α) : Prop := ∀ s, R s (final x s)

namespace Keeps

variable {R : σ → σ → Prop}

theorem of_ok {x : EStateM ε σ α} (hx : Keeps R x) {s s' : σ} {a : α} (h : x s = .ok a s') :
    R s s' :=
  final_of_ok h ▸ hx s

theorem mono {Q : σ → σ → Prop} {x : EStateM ε σ α} (hx : Keeps R x) (h : ∀ s t, R s t → Q s t) :
    Keeps Q x :=
  fun s => h _ _ (hx s)

theorem pure [Std.Refl R] (a : α) : Keeps R (Pure.pure a : EStateM ε σ α) :=
  fun s => Std.Refl.refl s

theorem throw [Std.Refl R] (h : ε) : Keeps R (MonadExcept.throw h : EStateM ε σ α) :=
  fun s => Std.Refl.refl s

theorem get [Std.Refl R] : Keeps R (MonadState.get : EStateM ε σ σ) :=
  fun s => Std.Refl.refl s

theorem modify {f : σ → σ} (h : ∀ s, R s (f s)) : Keeps R (modify f : EStateM ε σ PUnit) :=
  h

theorem bind [IsTrans σ R] {x : EStateM ε σ α} {f : α → EStateM ε σ β} (hx : Keeps R x)
    (hf : ∀ a, Keeps R (f a)) : Keeps R (x >>= f) := by
  intro s
  have h := hx s
  cases e : x s with
  | ok a t =>
    rw [final_bind_of_ok e]
    exact IsTrans.trans _ _ _ (final_of_ok e ▸ h) (hf a t)
  | error h' t =>
    rw [final_bind_of_error e]
    exact final_of_error e ▸ h

variable [Std.Refl R] [IsTrans σ R]

theorem mapM {f : α → EStateM ε σ β} : ∀ {as : List α}, (∀ a ∈ as, Keeps R (f a)) → Keeps R (as.mapM f)
  | [], _ => pure _
  | a :: as, h => by
    rw [List.mapM_cons]
    refine bind (h a List.mem_cons_self) fun b => ?_
    exact bind (mapM fun c hc => h c (List.mem_cons_of_mem _ hc)) fun bs => pure _

theorem forM {f : α → EStateM ε σ PUnit} :
    ∀ {as : List α}, (∀ a ∈ as, Keeps R (f a)) → Keeps R (as.forM f)
  | [], _ => pure _
  | a :: as, h => by
    rw [List.forM]
    exact bind (h a List.mem_cons_self) fun _ => forM fun c hc => h c (List.mem_cons_of_mem _ hc)

theorem foldlM {f : β → α → EStateM ε σ β} :
    ∀ {as : List α} {b : β}, (∀ b, ∀ a ∈ as, Keeps R (f b a)) → Keeps R (as.foldlM f b)
  | [], _, _ => pure _
  | a :: as, b, h => by
    rw [List.foldlM_cons]
    refine bind (h b a List.mem_cons_self) fun b => ?_
    exact foldlM fun b c hc => h b c (List.mem_cons_of_mem _ hc)

end Keeps
end Keeps

section Lasts

-- Whatever comes of the first step comes of the second.
def Lasts (x y : EStateM ε σ α) : Prop := ∀ s a t, x s = .ok a t → y s = .ok a t

namespace Lasts

variable {x y : EStateM ε σ α}

theorem refl (x : EStateM ε σ α) : Lasts x x := fun _ _ _ => id

theorem bind {f g : α → EStateM ε σ β} (h : Lasts x y) (hf : ∀ a, Lasts (f a) (g a)) :
    Lasts (x >>= f) (y >>= g) := by
  intro s b t hb
  obtain ⟨a, u, ha, hb⟩ := bind_eq_ok.mp hb
  exact bind_eq_ok.mpr ⟨a, u, h s a u ha, hf a u b t hb⟩

theorem mapM {f g : α → EStateM ε σ β} (h : ∀ a, Lasts (f a) (g a)) (as : List α) :
    Lasts (as.mapM f) (as.mapM g) := by
  induction as with
  | nil => exact refl _
  | cons a as ih =>
    rw [List.mapM_cons, List.mapM_cons]
    exact bind (h a) fun _ => bind ih fun _ => refl _

end Lasts
end Lasts
end Parvar
