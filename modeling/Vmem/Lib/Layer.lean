import Vmem.Lib.Prog

/-!
# Layers of programs

A program calls an interface; behind it, code with an object of its own serves the calls, and makes calls to an outside of its own. For the
program that code and that outside are one world (`World.over`). What every served call keeps is kept by a program that makes no other
calls (`wp_over`). A world `Refines` another if each of its answers is one of the other's; a program that keeps to a third world's rules then
has the same runs in both.
-/

namespace Vmem

namespace Prog

variable {ι ι' : Type} {ρ : ι → Type} {ρ' : ι' → Type} {α β σ S : Type}

/-- The code that serves the calls, with its object and its outside `W`. A call that no code serves may answer anything and changes
nothing. -/
def World.over (W : World ι' ρ' S) (serve : σ → (i : ι) → Option (Prog ι' ρ' (ρ i × σ))) : World ι ρ (σ × S) where
  permits i x :=
    match serve x.1 i with
    | none => True
    | some p => p.wp W (fun _ _ => True) x.2
  answers i x r y :=
    match serve x.1 i with
    | none => y = x
    | some p => p.Runs W x.2 (r, y.1) y.2

/-- The world in which only some calls are permitted, and any of them may answer anything. -/
def World.only (ρ : ι → Type) (ok : ι → Prop) : World ι ρ Unit where
  permits i _ := ok i
  answers _ _ _ _ := True

variable {W : World ι' ρ' S} {serve : σ → (i : ι) → Option (Prog ι' ρ' (ρ i × σ))}

/-- A call that code serves. -/
theorem over_served {i : ι} {b : σ} {s : S} {p : Prog ι' ρ' (ρ i × σ)} {Q : ρ i → σ × S → Prop} (hs : serve b i = some p)
    (h : p.wp W (fun r s' => Q r.1 (r.2, s')) s) :
    (W.over serve).permits i (b, s) ∧ ∀ (r : ρ i) (y : σ × S), (W.over serve).answers i (b, s) r y → Q r y := by
  refine ⟨?_, fun r y hr => ?_⟩
  · simp only [World.over, hs]
    exact wp_mono (fun _ _ _ => trivial) h
  · simp only [World.over, hs] at hr
    exact hr.of_wp h

/-- A call that no code serves. -/
theorem over_unserved {i : ι} {x : σ × S} {Q : ρ i → σ × S → Prop} (hs : serve x.1 i = none) (h : ∀ r, Q r x) :
    (W.over serve).permits i x ∧ ∀ (r : ρ i) (y : σ × S), (W.over serve).answers i x r y → Q r y := by
  refine ⟨?_, fun r y hr => ?_⟩
  · simp only [World.over, hs]
  · simp only [World.over, hs] at hr
    rw [hr]
    exact h r

/-- An invariant of the object and the outside that each call of some kind keeps is kept by a program that makes only such calls. -/
theorem wp_over {ok : ι → Prop} {T : σ → S → Prop} {Q : α → Prop}
    (hserve : ∀ (b : σ) (s : S) (i : ι) (p : Prog ι' ρ' (ρ i × σ)), ok i → T b s → serve b i = some p → p.wp W (fun r s' => T r.2 s') s)
    {p : Prog ι ρ α} (hp : p.wp (World.only ρ ok) (fun a _ => Q a) ()) :
    ∀ {b : σ} {s : S}, T b s → p.wp (W.over serve) (fun a y => Q a ∧ T y.1 y.2) (b, s) := by
  induction p with
  | ret a => exact fun h => ⟨hp, h⟩
  | op i k ih =>
    intro b s h
    have hnext (r : ρ i) : (k r).wp (World.only ρ ok) (fun a _ => Q a) () := hp.2 r () trivial
    cases hs : serve b i with
    | none => exact over_unserved hs fun r => ih r (hnext r) h
    | some q => exact over_served hs (wp_mono (fun r _ hT => ih r.1 (hnext r.1) hT) (hserve b s i q hp.1 h hs))

/-! ## Answers -/

/-- What every answer keeps, a run keeps. -/
theorem Runs.keeps {P : S → Prop} (hW : ∀ (i : ι') (s : S) (r : ρ' i) (s' : S), W.answers i s r s' → P s → P s') {p : Prog ι' ρ' α}
    {s s' : S} {a : α} (h : p.Runs W s a s') : P s → P s' := by
  induction h with
  | ret a s => exact id
  | op h hk ih => exact fun hs => ih (hW _ _ _ _ h hs)

/-- What every answer outside keeps, an answer of the code behind a call keeps. -/
theorem over_keeps {P : S → Prop} (hW : ∀ (i : ι') (s : S) (r : ρ' i) (s' : S), W.answers i s r s' → P s → P s') {i : ι} {x y : σ × S}
    {r : ρ i} (h : (W.over serve).answers i x r y) (hx : P x.2) : P y.2 := by
  cases hs : serve x.1 i with
  | none =>
    simp only [World.over, hs] at h
    exact h ▸ hx
  | some p =>
    simp only [World.over, hs] at h
    exact h.keeps hW hx

/-- A world with fewer answers keeps every promise. -/
theorem wp_of_fewer {U V : World ι ρ S} (hp : ∀ i s, V.permits i s → U.permits i s)
    (ha : ∀ i s r s', U.answers i s r s' → V.answers i s r s') {p : Prog ι ρ α} {Q : α → S → Prop} :
    ∀ {s : S}, p.wp V Q s → p.wp U Q s := by
  induction p with
  | ret a => exact id
  | op i k ih => exact fun h => ⟨hp _ _ h.1, fun r s' hr => ih r (h.2 r s' (ha _ _ _ _ hr))⟩

/-- A call that code serves, and its answer. -/
theorem answers_over {i : ι} {b : σ} {s : S} {p : Prog ι' ρ' (ρ i × σ)} {r : ρ i} {y : σ × S} (hs : serve b i = some p)
    (h : (W.over serve).answers i (b, s) r y) : p.Runs W s (r, y.1) y.2 := by
  simpa only [World.over, hs] using h

/-- What the code behind a call comes to is an answer. -/
theorem over_answers {i : ι} {b : σ} {s : S} {p : Prog ι' ρ' (ρ i × σ)} {r : ρ i} {y : σ × S} (hs : serve b i = some p)
    (h : p.Runs W s (r, y.1) y.2) : (W.over serve).answers i (b, s) r y := by
  simpa only [World.over, hs] using h

/-- A call that no code serves changes nothing. -/
theorem answers_unserved {i : ι} {x y : σ × S} {r : ρ i} (hs : serve x.1 i = none) (h : (W.over serve).answers i x r y) : y = x := by
  simpa only [World.over, hs] using h

/-! ## Fewer answers -/

/-- The world with only some of the answers. -/
def World.filter (W : World ι' ρ' S) (P : (i : ι') → ρ' i → Prop) : World ι' ρ' S :=
  { W with answers := fun i s r s' => W.answers i s r s' ∧ P i r }

/-- With fewer answers outside, the code behind a call has fewer. -/
theorem over_mono {V : World ι' ρ' S} (h : ∀ i s r s', V.answers i s r s' → W.answers i s r s') {i : ι} {x y : σ × S} {r : ρ i}
    (hr : (V.over serve).answers i x r y) : (W.over serve).answers i x r y := by
  cases hs : serve x.1 i with
  | none => simpa only [World.over, hs] using hr
  | some p =>
    simp only [World.over, hs] at hr ⊢
    exact hr.mono h

/-- Answers that are among some of the answers. -/
theorem answers_of_filter {P : (i : ι') → ρ' i → Prop} {P' : (i : ι) → ρ i → Prop} {i : ι} {x y : σ × S} {r : ρ i}
    (hr : (((W.filter P).over serve).filter P').answers i x r y) : (W.over serve).answers i x r y :=
  over_mono (V := W.filter P) (fun _ _ _ _ h => h.1) hr.1

/-- A call that no code serves may answer anything. -/
theorem unserved_answers {i : ι} {x : σ × S} (hs : serve x.1 i = none) (r : ρ i) : (W.over serve).answers i x r x := by
  simp only [World.over, hs]

/-- Code whose calls are all answered answers the call that it serves. -/
theorem over_live {i : ι} {b : σ} {s : S} {p : Prog ι' ρ' (ρ i × σ)} {Q : ρ i → σ × S → Prop} (hs : serve b i = some p)
    (h : p.wp W.live (fun r s' => Q r.1 (r.2, s')) s) :
    (∃ r y, (W.over serve).answers i (b, s) r y) ∧ ∀ (r : ρ i) (y : σ × S), (W.over serve).answers i (b, s) r y → Q r y := by
  constructor
  · obtain ⟨r, s', hr, -⟩ := exists_runs_of_live h
    exact ⟨r.1, (r.2, s'), over_answers hs hr⟩
  · intro r y hr
    exact ((answers_over hs hr).mono fun _ _ _ _ h => h : p.Runs W.live s (r, y.1) y.2).of_wp h

/-! ## Layers that are run -/

/-- Run the code behind a call against an outside that has at most one answer to each of its calls; a call that no code serves has the
answer `free`, if any. -/
def execOver (f : (i : ι') → S → Option (ρ' i × S)) (serve : σ → (i : ι) → Option (Prog ι' ρ' (ρ i × σ))) (free : (i : ι) → Option (ρ i))
    (i : ι) (x : σ × S) : Option (ρ i × (σ × S)) :=
  match serve x.1 i with
  | none => (free i).map fun r => (r, x)
  | some p => (p.exec f x.2).map fun y => (y.1.1, (y.1.2, y.2))

/-- What a call comes to when it is run is an answer. -/
theorem answers_of_execOver {f : (i : ι') → S → Option (ρ' i × S)} {free : (i : ι) → Option (ρ i)}
    (hf : ∀ i s r s', f i s = some (r, s') → W.answers i s r s') (i : ι) (x : σ × S) (r : ρ i) (y : σ × S)
    (h : execOver f serve free i x = some (r, y)) : (W.over serve).answers i x r y := by
  unfold execOver at h
  split at h
  · next hs =>
    obtain ⟨r, -, h⟩ := Option.map_eq_some_iff.1 h
    cases h
    exact unserved_answers hs r
  · next p hs =>
    obtain ⟨z, hz, h⟩ := Option.map_eq_some_iff.1 h
    cases h
    exact over_answers hs (runs_of_exec hf hz)

/-! ## Refinement -/

variable {T L : Type}

/-- Every answer of `U` to a call that `G` permits is an answer of `V` and of `G`, and the states stay related. `G` is a ghost: it says what the
calls of a program have to respect, and is not part of either world. -/
def World.Refines (U : World ι ρ S) (V : World ι ρ T) (G : World ι ρ L) (R : T → L → S → Prop) : Prop :=
  ∀ (i : ι) (t : T) (l : L) (s s' : S) (r : ρ i), R t l s → G.permits i l → U.answers i s r s' →
    ∃ (t' : T) (l' : L), V.answers i t r t' ∧ G.answers i l r l' ∧ R t' l' s'

/-- A run of a program that respects `G` is a run in the refined world. -/
theorem World.Refines.runs {U : World ι ρ S} {V : World ι ρ T} {G : World ι ρ L} {R : T → L → S → Prop} (hU : U.Refines V G R)
    {p : Prog ι ρ α} {s s' : S} {a : α} (hr : p.Runs U s a s') {Q : α → L → Prop} : ∀ {t : T} {l : L}, R t l s → p.wp G Q l →
      ∃ (t' : T) (l' : L), p.Runs V t a t' ∧ Q a l' ∧ R t' l' s' := by
  induction hr with
  | ret a s => exact fun h hp => ⟨_, _, .ret a _, hp, h⟩
  | op hi hk ih =>
    intro t l h hp
    obtain ⟨t₁, l₁, hv, hg, h₁⟩ := hU _ _ _ _ _ _ h hp.1 hi
    obtain ⟨t', l', hruns, hQ, h'⟩ := ih h₁ (hp.2 _ _ hg)
    exact ⟨t', l', .op hv hruns, hQ, h'⟩

end Prog

/-! ## Code that makes only some calls -/

namespace Throwing

open Prog

variable {ι : Type} {ρ : ι → Type} {σ ε α β : Type} {ok : ι → Prop}

/-- Code that makes only some calls, whatever they answer. -/
def Only (ok : ι → Prop) (x : Throwing ι ρ σ ε α) : Prop :=
  ∀ b, wp (World.only ρ ok) x (fun _ _ _ => True) (fun _ _ _ => True) b ()

/-- Code that does nothing makes no call. -/
theorem only_pure (a : α) : Only ok (pure a : Throwing ι ρ σ ε α) := fun _ => trivial

theorem only_throw (e : ε) : Only ok (throw e : Throwing ι ρ σ ε α) := fun _ => trivial

theorem only_get : Only ok (get : Throwing ι ρ σ ε σ) := fun _ => trivial

theorem only_modify (u : σ → σ) : Only ok (modify u : Throwing ι ρ σ ε PUnit) := fun _ => trivial

/-- A call that is allowed is one. -/
theorem only_call {i : ι} (h : ok i) : Only ok (call i : Throwing ι ρ σ ε (ρ i)) := fun _ => ⟨h, fun _ _ _ => trivial⟩

/-- A sequence makes the calls of its parts. -/
theorem only_bind {x : Throwing ι ρ σ ε α} {f : α → Throwing ι ρ σ ε β} (hx : Only ok x) (hf : ∀ a, Only ok (f a)) :
    Only ok (x >>= f) := fun b => wp_seq (hx b) fun a b' _ _ => hf a b'

/-- A branch makes the calls of its sides. -/
theorem only_ite {c : Prop} [Decidable c] {x y : Throwing ι ρ σ ε α} (hx : Only ok x) (hy : Only ok y) : Only ok (if c then x else y) := by
  split
  · exact hx
  · exact hy

/-- A handler makes calls of its own. -/
theorem only_tryCatch {x : Throwing ι ρ σ ε α} {f : ε → Throwing ι ρ σ ε α} (hx : Only ok x) (hf : ∀ e, Only ok (f e)) :
    Only ok (tryCatch x f) := by
  intro b
  rw [wp_tryCatch]
  exact wp_mono (hx b) (fun _ _ _ _ => trivial) fun e b' _ _ => hf e b'

variable {ι' : Type} {ρ' : ι' → Type} {τ S : Type} {W : World ι' ρ' S} {serve : τ → (i : ι) → Option (Prog ι' ρ' (ρ i × τ))}

/-- The same for code that may throw. -/
theorem wp_over {T : τ → S → Prop} {Q : α → Prop} {E : ε → Prop}
    (hserve : ∀ (b : τ) (s : S) (i : ι) (p : Prog ι' ρ' (ρ i × τ)), ok i → T b s → serve b i = some p → p.wp W (fun r s' => T r.2 s') s)
    {x : Throwing ι ρ σ ε α} {a : σ} (hx : wp (World.only ρ ok) x (fun r _ _ => Q r) (fun e _ _ => E e) a ()) {b : τ} {s : S} (h : T b s) :
    wp (W.over serve) x (fun r _ y => Q r ∧ T y.1 y.2) (fun e _ y => E e ∧ T y.1 y.2) a (b, s) := by
  have hrun : (x.run a).wp (World.only ρ ok) (fun r _ => (∀ v, r.1 = .ok v → Q v) ∧ ∀ e, r.1 = .error e → E e) () := by
    refine Prog.wp_mono ?_ hx
    rintro ⟨r, a'⟩ _ hr
    cases r with
    | ok r => exact ⟨fun v hv => Except.ok.inj hv ▸ hr, fun e he => absurd he (by simp)⟩
    | error e => exact ⟨fun v hv => absurd hv (by simp), fun e' he => Except.error.inj he ▸ hr⟩
  refine Prog.wp_mono ?_ (Prog.wp_over hserve hrun h)
  rintro ⟨r, a'⟩ y ⟨hr, hT⟩
  cases r with
  | ok r => exact ⟨hr.1 r rfl, hT⟩
  | error e => exact ⟨hr.2 e rfl, hT⟩

end Throwing

end Vmem
