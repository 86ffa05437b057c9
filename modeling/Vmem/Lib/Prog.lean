import Mathlib

/-!
# Programs that call outside code

A program either returns or makes a call and goes on with its answer (`Prog`). What the calls do is not part of the program: a
`World` says which calls are permitted in a state and which answers and states may follow. `wp` is the weakest precondition of
a program in a world. It also says that every call is permitted, so it bounds what the program does on the way and not only its
result. `Runs` is the relation that `wp` over-approximates. `Code` is a program that also works on an object of its own, and `Throwing` is
code that may end in an exception.
-/

namespace Vmem

/-- A program over calls `i : ι` answered by `ρ i` that returns an `α`. -/
inductive Prog (ι : Type) (ρ : ι → Type) (α : Type) : Type
  | ret (a : α)
  | op (i : ι) (k : ρ i → Prog ι ρ α)

namespace Prog

variable {ι : Type} {ρ : ι → Type} {α β S : Type}

/-- Run a program, then another on its result. -/
def bind : Prog ι ρ α → (α → Prog ι ρ β) → Prog ι ρ β
  | ret a, f => f a
  | op i k, f => op i fun r => (k r).bind f

instance : Monad (Prog ι ρ) where
  pure := ret
  bind := bind

instance : LawfulMonad (Prog ι ρ) := by
  refine LawfulMonad.mk' _ ?_ (fun _ _ => rfl) ?_
  · intro α p
    induction p with
    | ret a => rfl
    | op i k ih => exact congrArg (op i) (funext ih)
  · intro α β γ p f g
    induction p with
    | ret a => rfl
    | op i k ih => exact congrArg (op i) (funext ih)

/-- The outside of a program: the calls it permits, and the answers and states that may follow a call. -/
structure World (ι : Type) (ρ : ι → Type) (S : Type) where
  permits : ι → S → Prop
  answers : (i : ι) → S → ρ i → S → Prop

/-- `p.Runs W s a s'`: in the world `W`, from the state `s`, the program may return `a` in the state `s'`. -/
inductive Runs (W : World ι ρ S) : Prog ι ρ α → S → α → S → Prop
  | ret (a : α) (s : S) : Runs W (.ret a) s a s
  | op {i : ι} {k : ρ i → Prog ι ρ α} {s s' s'' : S} {r : ρ i} {a : α} (h : W.answers i s r s')
      (hk : Runs W (k r) s' a s'') : Runs W (.op i k) s a s''

/-- From `s` every call of the program is permitted and every result satisfies `Q`. -/
def wp (W : World ι ρ S) : Prog ι ρ α → (α → S → Prop) → S → Prop
  | ret a, Q, s => Q a s
  | op i k, Q, s => W.permits i s ∧ ∀ r s', W.answers i s r s' → (k r).wp W Q s'

/-- What `wp` promises holds of every result. -/
theorem Runs.of_wp {W : World ι ρ S} {p : Prog ι ρ α} {s s' : S} {a : α} {Q : α → S → Prop} (h : p.Runs W s a s')
    (hp : p.wp W Q s) : Q a s' := by
  induction h with
  | ret a s => exact hp
  | op h hk ih => exact ih (hp.2 _ _ h)

/-- A run of two programs in a row is a run of the first and then one of the second. -/
theorem runs_bind {W : World ι ρ S} {p : Prog ι ρ α} {f : α → Prog ι ρ β} {s s'' : S} {b : β} :
    (p >>= f).Runs W s b s'' ↔ ∃ a s', p.Runs W s a s' ∧ (f a).Runs W s' b s'' := by
  constructor
  · intro h
    induction p generalizing s with
    | ret a => exact ⟨a, s, .ret a s, h⟩
    | op i k ih =>
      cases h with
      | op hi hk =>
        obtain ⟨a, s', hp, hf⟩ := ih _ hk
        exact ⟨a, s', .op hi hp, hf⟩
  · rintro ⟨a, s', hp, hf⟩
    induction hp with
    | ret a s => exact hf
    | op hi _ ih => exact .op hi (ih hf)

/-- A run is also one of a world with more answers. -/
theorem Runs.mono {W W' : World ι ρ S} {p : Prog ι ρ α} {s s' : S} {a : α} (h : p.Runs W s a s')
    (hW : ∀ i s r s', W.answers i s r s' → W'.answers i s r s') : p.Runs W' s a s' := by
  induction h with
  | ret a s => exact .ret a s
  | op h hk ih => exact .op (hW _ _ _ _ h) ih

/-- A weaker postcondition holds as well. -/
theorem wp_mono {W : World ι ρ S} {p : Prog ι ρ α} {Q R : α → S → Prop} (hQ : ∀ a s, Q a s → R a s) :
    ∀ {s : S}, p.wp W Q s → p.wp W R s := by
  induction p with
  | ret a => exact fun h => hQ a _ h
  | op i k ih => exact fun h => ⟨h.1, fun r s' hr => ih r (h.2 r s' hr)⟩

/-- Two promises are one. -/
theorem wp_and {W : World ι ρ S} {p : Prog ι ρ α} {Q R : α → S → Prop} : ∀ {s : S}, p.wp W Q s → p.wp W R s →
    p.wp W (fun a s' => Q a s' ∧ R a s') s := by
  induction p with
  | ret a => exact fun h h' => ⟨h, h'⟩
  | op i k ih => exact fun h h' => ⟨h.1, fun r s' hr => ih r (h.2 r s' hr) (h'.2 r s' hr)⟩

/-- A sequence establishes what its second part does after the first. -/
theorem wp_bind {W : World ι ρ S} {p : Prog ι ρ α} {f : α → Prog ι ρ β} {Q : β → S → Prop} :
    ∀ {s : S}, (p >>= f).wp W Q s ↔ p.wp W (fun a s' => (f a).wp W Q s') s := by
  induction p with
  | ret a => exact Iff.rfl
  | op i k ih => exact and_congr_right fun _ => forall₂_congr fun r s' => imp_congr_right fun _ => ih r

/-- In a world that answers every call it permits, what `wp` promises happens. -/
theorem exists_runs_of_wp {W : World ι ρ S} (hW : ∀ i s, W.permits i s → ∃ r s', W.answers i s r s') {p : Prog ι ρ α}
    {Q : α → S → Prop} : ∀ {s : S}, p.wp W Q s → ∃ a s', p.Runs W s a s' ∧ Q a s' := by
  induction p with
  | ret a => exact fun h => ⟨a, _, .ret a _, h⟩
  | op i k ih =>
    intro s h
    obtain ⟨r, s', hr⟩ := hW i s h.1
    obtain ⟨a, s'', hk, hQ⟩ := ih r (h.2 r s' hr)
    exact ⟨a, s'', .op hr hk, hQ⟩

/-- The world in which a program may only make calls that are answered. -/
def World.live (W : World ι ρ S) : World ι ρ S := { W with permits := fun i s => ∃ r s', W.answers i s r s' }

/-- A program that only makes calls that are answered ends. -/
theorem exists_runs_of_live {W : World ι ρ S} {p : Prog ι ρ α} {Q : α → S → Prop} {s : S} (h : p.wp W.live Q s) :
    ∃ a s', p.Runs W s a s' ∧ Q a s' := by
  obtain ⟨a, s', hruns, hQ⟩ := exists_runs_of_wp (fun _ _ hp => hp) h
  exact ⟨a, s', hruns.mono fun _ _ _ _ hr => hr, hQ⟩

/-- A call with this answer, and a run of what follows it. -/
theorem runs_ask {W : World ι ρ S} {i : ι} {k : ρ i → Prog ι ρ α} {s s' s'' : S} {a : α} (r : ρ i) (h : W.answers i s r s')
    (hk : (k r).Runs W s' a s'') : (op i k).Runs W s a s'' := .op h hk

/-! ## Programs that are run -/

/-- Run a program against an outside that has at most one answer to each call. -/
def exec (f : (i : ι) → S → Option (ρ i × S)) : Prog ι ρ α → S → Option (α × S)
  | ret a, s => some (a, s)
  | op i k, s => (f i s).bind fun x => (k x.1).exec f x.2

/-- The first call that such an outside does not answer. -/
def stuck (f : (i : ι) → S → Option (ρ i × S)) : Prog ι ρ α → S → Option (ι × S)
  | ret _, _ => none
  | op i k, s =>
    match f i s with
    | none => some (i, s)
    | some x => (k x.1).stuck f x.2

variable {W : World ι ρ S} {f : (i : ι) → S → Option (ρ i × S)}

/-- Where the answers are those of a world, what is run happens in it. -/
theorem runs_of_exec (hf : ∀ i s r s', f i s = some (r, s') → W.answers i s r s') {p : Prog ι ρ α} :
    ∀ {s s' : S} {a : α}, p.exec f s = some (a, s') → p.Runs W s a s' := by
  induction p with
  | ret a =>
    intro s s' a' h
    cases h
    exact .ret a s
  | op i k ih =>
    intro s s' a' h
    obtain ⟨⟨r, s₁⟩, hi, hk⟩ := Option.bind_eq_some_iff.1 h
    exact .op (hf i s r s₁ hi) (ih r hk)

/-- A program that `wp` admits is only stuck at a call that is permitted. -/
theorem permits_of_stuck (hf : ∀ i s r s', f i s = some (r, s') → W.answers i s r s') {p : Prog ι ρ α} {Q : α → S → Prop} {i : ι} :
    ∀ {s s' : S}, p.wp W Q s → p.stuck f s = some (i, s') → W.permits i s' := by
  induction p with
  | ret a =>
    intro s s' _ h
    cases h
  | op j k ih =>
    intro s s' hp h
    unfold stuck at h
    cases hj : f j s with
    | none =>
      rw [hj] at h
      cases h
      exact hp.1
    | some x =>
      rw [hj] at h
      exact ih x.1 (hp.2 x.1 x.2 (hf j s x.1 x.2 hj)) h

end Prog

/-- A program that reads and writes an object of type `σ`. -/
abbrev Code (ι : Type) (ρ : ι → Type) (σ : Type) : Type → Type := StateT σ (Prog ι ρ)

namespace Code

open Prog

variable {ι : Type} {ρ : ι → Type} {σ α β S : Type}

/-- Make a call. -/
def call (i : ι) : Code ι ρ σ (ρ i) := fun b => .op i fun r => .ret (r, b)

/-- The weakest precondition of a piece of code; the object after it is part of its result. -/
def wp (W : World ι ρ S) (x : Code ι ρ σ α) (Q : α → σ → S → Prop) (b : σ) (s : S) : Prop :=
  Prog.wp W (x b) (fun r s' => Q r.1 r.2 s') s

variable {W : World ι ρ S} {b : σ} {s : S}

theorem wp_mono {x : Code ι ρ σ α} {Q R : α → σ → S → Prop} (h : wp W x Q b s) (hQ : ∀ a b s, Q a b s → R a b s) :
    wp W x R b s := by
  refine Prog.wp_mono ?_ h
  intro r s' hr
  exact hQ r.1 r.2 s' hr

/-- The rules for the pieces of code. -/
@[simp] theorem wp_pure {a : α} {Q : α → σ → S → Prop} : wp W (pure a : Code ι ρ σ α) Q b s ↔ Q a b s := Iff.rfl

@[simp] theorem wp_bind {x : Code ι ρ σ α} {f : α → Code ι ρ σ β} {Q : β → σ → S → Prop} :
    wp W (x >>= f) Q b s ↔ wp W x (fun a b' s' => wp W (f a) Q b' s') b s :=
  Prog.wp_bind

/-- Run a piece of code whose results are known, then another. -/
theorem wp_seq {x : Code ι ρ σ α} {f : α → Code ι ρ σ β} {Q : β → σ → S → Prop} {R : α → σ → S → Prop}
    (h : wp W x R b s) (hf : ∀ a b' s', R a b' s' → wp W (f a) Q b' s') : wp W (x >>= f) Q b s :=
  wp_bind.2 (wp_mono h hf)

@[simp] theorem wp_call {i : ι} {Q : ρ i → σ → S → Prop} :
    wp W (call i : Code ι ρ σ (ρ i)) Q b s ↔ W.permits i s ∧ ∀ r s', W.answers i s r s' → Q r b s' := Iff.rfl

@[simp] theorem wp_get {Q : σ → σ → S → Prop} : wp W (get : Code ι ρ σ σ) Q b s ↔ Q b b s := Iff.rfl

@[simp] theorem wp_modify {g : σ → σ} {Q : PUnit → σ → S → Prop} :
    wp W (modify g : Code ι ρ σ PUnit) Q b s ↔ Q ⟨⟩ (g b) s := Iff.rfl

theorem wp_ite {c : Prop} [Decidable c] {x y : Code ι ρ σ α} {Q : α → σ → S → Prop} :
    wp W (if c then x else y) Q b s ↔ (c → wp W x Q b s) ∧ (¬c → wp W y Q b s) := by
  by_cases h : c <;> simp [h]

/-! ## Invariants of code -/

/-- Code that keeps an invariant of its object and the outside. -/
def Keeps (W : World ι ρ S) (P : σ → S → Prop) (x : Code ι ρ σ α) : Prop :=
  ∀ b s, P b s → wp W x (fun _ b' s' => P b' s') b s

variable {P : σ → S → Prop}

/-- Code that does nothing keeps an invariant. -/
theorem keeps_pure (a : α) : Keeps W P (pure a) := fun _ _ h => h

/-- A sequence keeps what both parts keep. -/
theorem keeps_bind {x : Code ι ρ σ α} {f : α → Code ι ρ σ β} (hx : Keeps W P x) (hf : ∀ a, Keeps W P (f a)) :
    Keeps W P (x >>= f) := by
  intro b s h
  exact wp_seq (hx b s h) fun a b' s' h' => hf a b' s' h'

/-- Reading the state keeps it. -/
theorem keeps_get : Keeps W P (get : Code ι ρ σ σ) := fun _ _ h => h

/-- A write keeps it if the new state has it. -/
theorem keeps_modify {u : σ → σ} (h : ∀ b s, P b s → P (u b) s) : Keeps W P (modify u : Code ι ρ σ PUnit) := h

/-- A call keeps it if every answer does. -/
theorem keeps_call {i : ι} (h : ∀ b s, P b s → W.permits i s ∧ ∀ r s', W.answers i s r s' → P b s') :
    Keeps W P (call i) := h

/-- A branch keeps what both sides keep. -/
theorem keeps_ite {c : Prop} [Decidable c] {x y : Code ι ρ σ α} (hx : Keeps W P x) (hy : Keeps W P y) :
    Keeps W P (if c then x else y) := by
  split
  · exact hx
  · exact hy

end Code

/-- Code that may throw an `ε`; what it wrote to its object before stays written. -/
abbrev Throwing (ι : Type) (ρ : ι → Type) (σ ε : Type) : Type → Type := ExceptT ε (Code ι ρ σ)

namespace Throwing

open Prog

variable {ι : Type} {ρ : ι → Type} {σ ε α β S : Type}

/-- Make a call. -/
def call (i : ι) : Throwing ι ρ σ ε (ρ i) := ExceptT.lift (Code.call i)

/-- The weakest precondition of code that may throw: `Q` of the results, `E` of what is thrown. -/
def wp (W : World ι ρ S) (x : Throwing ι ρ σ ε α) (Q : α → σ → S → Prop) (E : ε → σ → S → Prop) (b : σ) (s : S) : Prop :=
  Code.wp W x.run (fun r b' s' =>
    match r with
    | .ok a => Q a b' s'
    | .error e => E e b' s') b s

variable {W : World ι ρ S} {E : ε → σ → S → Prop} {b : σ} {s : S}

theorem wp_mono {x : Throwing ι ρ σ ε α} {Q R : α → σ → S → Prop} {E F : ε → σ → S → Prop} (h : wp W x Q E b s)
    (hQ : ∀ a b s, Q a b s → R a b s) (hE : ∀ e b s, E e b s → F e b s) : wp W x R F b s := by
  refine Code.wp_mono h ?_
  intro r b' s' hr
  cases r with
  | ok a => exact hQ a b' s' hr
  | error e => exact hE e b' s' hr

@[simp] theorem wp_pure {a : α} {Q : α → σ → S → Prop} : wp W (pure a : Throwing ι ρ σ ε α) Q E b s ↔ Q a b s := Iff.rfl

@[simp] theorem wp_throw {e : ε} {Q : α → σ → S → Prop} : wp W (throw e : Throwing ι ρ σ ε α) Q E b s ↔ E e b s := Iff.rfl

@[simp] theorem wp_bind {x : Throwing ι ρ σ ε α} {f : α → Throwing ι ρ σ ε β} {Q : β → σ → S → Prop} :
    wp W (x >>= f) Q E b s ↔ wp W x (fun a b' s' => wp W (f a) Q E b' s') E b s := by
  unfold wp
  rw [ExceptT.run_bind, Code.wp_bind]
  constructor
  all_goals
    intro h
    refine Code.wp_mono h ?_
    intro r b' s' hr
    cases r with
    | ok a => exact hr
    | error e => exact hr

/-- Run code whose results are known, then more. -/
theorem wp_seq {x : Throwing ι ρ σ ε α} {f : α → Throwing ι ρ σ ε β} {Q : β → σ → S → Prop} {R : α → σ → S → Prop}
    (h : wp W x R E b s) (hf : ∀ a b' s', R a b' s' → wp W (f a) Q E b' s') : wp W (x >>= f) Q E b s :=
  wp_bind.2 (wp_mono h hf fun _ _ _ h => h)

@[simp] theorem wp_call {i : ι} {Q : ρ i → σ → S → Prop} :
    wp W (call i : Throwing ι ρ σ ε (ρ i)) Q E b s ↔ W.permits i s ∧ ∀ r s', W.answers i s r s' → Q r b s' := Iff.rfl

@[simp] theorem wp_get {Q : σ → σ → S → Prop} : wp W (get : Throwing ι ρ σ ε σ) Q E b s ↔ Q b b s := Iff.rfl

@[simp] theorem wp_modify {g : σ → σ} {Q : PUnit → σ → S → Prop} :
    wp W (modify g : Throwing ι ρ σ ε PUnit) Q E b s ↔ Q ⟨⟩ (g b) s := Iff.rfl

@[simp] theorem wp_tryCatch {x : Throwing ι ρ σ ε α} {f : ε → Throwing ι ρ σ ε α} {Q : α → σ → S → Prop} :
    wp W (tryCatch x f) Q E b s ↔ wp W x Q (fun e b' s' => wp W (f e) Q E b' s') b s := by
  unfold wp
  rw [ExceptT.run_tryCatch, Code.wp_bind]
  constructor
  all_goals
    intro h
    refine Code.wp_mono h ?_
    intro r b' s' hr
    cases r with
    | ok a => exact hr
    | error e => exact hr

theorem wp_ite {c : Prop} [Decidable c] {x y : Throwing ι ρ σ ε α} {Q : α → σ → S → Prop} :
    wp W (if c then x else y) Q E b s ↔ (c → wp W x Q E b s) ∧ (¬c → wp W y Q E b s) := by
  by_cases h : c <;> simp [h]

/-! ## Invariants of code that may throw -/

/-- Code that keeps `P` when it returns and leaves `F` when it throws. -/
def Keeps (W : World ι ρ S) (P F : σ → S → Prop) (x : Throwing ι ρ σ ε α) : Prop :=
  ∀ b s, P b s → wp W x (fun _ => P) (fun _ => F) b s

variable {P F : σ → S → Prop}

/-- Code that does nothing keeps an invariant, thrown or not. -/
theorem keeps_pure (a : α) : Keeps W P F (pure a : Throwing ι ρ σ ε α) := fun _ _ h => h

/-- An error keeps it if what it leaves may be left. -/
theorem keeps_throw (h : ∀ b s, P b s → F b s) (e : ε) : Keeps W P F (throw e : Throwing ι ρ σ ε α) := h

/-- A sequence keeps what both parts keep, and what either leaves when it throws. -/
theorem keeps_bind {x : Throwing ι ρ σ ε α} {f : α → Throwing ι ρ σ ε β} (hx : Keeps W P F x) (hf : ∀ a, Keeps W P F (f a)) :
    Keeps W P F (x >>= f) := by
  intro b s h
  exact wp_seq (hx b s h) fun a b' s' h' => hf a b' s' h'

/-- Reading the state keeps both. -/
theorem keeps_get : Keeps W P F (get : Throwing ι ρ σ ε σ) := fun _ _ h => h

/-- A write keeps both if the new state has the invariant. -/
theorem keeps_modify {u : σ → σ} (h : ∀ b s, P b s → P (u b) s) : Keeps W P F (modify u : Throwing ι ρ σ ε PUnit) := h

/-- A call keeps both if every answer does. -/
theorem keeps_call {i : ι} (h : ∀ b s, P b s → W.permits i s ∧ ∀ r s', W.answers i s r s' → P b s') :
    Keeps W P F (call i : Throwing ι ρ σ ε (ρ i)) := h

/-- A branch keeps what both sides keep. -/
theorem keeps_ite {c : Prop} [Decidable c] {x y : Throwing ι ρ σ ε α} (hx : Keeps W P F x) (hy : Keeps W P F y) :
    Keeps W P F (if c then x else y) := by
  split
  · exact hx
  · exact hy

/-! ## Runs of code that may throw -/

/-- A call that is answered runs. -/
theorem runs_call {i : ι} {a : ρ i} {s' : S} (h : W.answers i s a s') :
    Runs W ((call i : Throwing ι ρ σ ε (ρ i)).run b) s (.ok a, b) s' :=
  .op h (.ret _ _)

/-- Code that does nothing runs. -/
theorem runs_pure {a : α} : Runs W ((pure a : Throwing ι ρ σ ε α).run b) s (.ok a, b) s := .ret _ _

/-- Reading the state runs. -/
theorem runs_get : Runs W ((get : Throwing ι ρ σ ε σ).run b) s (.ok b, b) s := .ret _ _

/-- Writing it runs. -/
theorem runs_modify {g : σ → σ} : Runs W ((modify g : Throwing ι ρ σ ε PUnit).run b) s (.ok ⟨⟩, g b) s := .ret _ _

/-- Code that returned, and what follows it. -/
theorem runs_seq {x : Throwing ι ρ σ ε α} {f : α → Throwing ι ρ σ ε β} {a : α} {b' b'' : σ} {r : Except ε β} {s' s'' : S}
    (hx : Runs W (x.run b) s (.ok a, b') s') (hf : Runs W ((f a).run b') s' (r, b'') s'') :
    Runs W ((x >>= f).run b) s (r, b'') s'' :=
  Prog.runs_bind.2 ⟨_, _, hx, hf⟩

/-- Code that threw: nothing follows it. -/
theorem runs_throw {x : Throwing ι ρ σ ε α} {f : α → Throwing ι ρ σ ε β} {e : ε} {b' : σ} {s' : S}
    (hx : Runs W (x.run b) s (.error e, b') s') : Runs W ((x >>= f).run b) s (.error e, b') s' :=
  Prog.runs_bind.2 ⟨_, _, hx, .ret _ _⟩

/-- Code in a row threw in its first part, or went on with the second. -/
theorem runs_seq_cases {x : Throwing ι ρ σ ε α} {f : α → Throwing ι ρ σ ε β} {b'' : σ} {r : Except ε β} {s'' : S}
    (h : Runs W ((x >>= f).run b) s (r, b'') s'') :
    (∃ e : ε, r = .error e ∧ Runs W (x.run b) s (.error e, b'') s'') ∨
      ∃ (a : α) (b' : σ) (s' : S), Runs W (x.run b) s (.ok a, b') s' ∧ Runs W ((f a).run b') s' (r, b'') s'' := by
  obtain ⟨⟨r₁, b₁⟩, s₁, hx, hf⟩ := Prog.runs_bind.1 h
  cases r₁ with
  | error e =>
    cases hf
    exact .inl ⟨e, rfl, hx⟩
  | ok a => exact .inr ⟨a, b₁, s₁, hx, hf⟩

/-- A call was answered. -/
theorem answers_of_runs {i : ι} {r : Except ε (ρ i)} {b' : σ} {s' : S} (h : Runs W ((call i : Throwing ι ρ σ ε (ρ i)).run b) s (r, b') s') :
    ∃ a : ρ i, r = .ok a ∧ b' = b ∧ W.answers i s a s' := by
  cases h with
  | op hi hk =>
    cases hk
    exact ⟨_, rfl, rfl, hi⟩

end Throwing

end Vmem
