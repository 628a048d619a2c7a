import Mathlib.Logic.Basic

/-!
# Programs over a handler

A program that works on a state only through a fixed set of operations is written once, over
any `Handler`, and run with the handler of the state at hand. When no operation returns
anything to the program, what it does is a script: the list of operations it performs and the
value it returns do not depend on the handler. `Scripted` says so, is closed under the monad
operations, and turns statements about the program into statements about `perform`.
-/

/-- The effect of each operation on a state; it may fail. -/
abbrev Handler (Op σ ε : Type) := Op → StateT σ (Except ε) Unit

namespace Handler

variable {Op σ ε α β : Type}

/-- Perform a list of operations in order. -/
def perform (h : Handler Op σ ε) : List Op → StateT σ (Except ε) Unit
  | [] => pure ()
  | op :: ops => do
    h op
    perform h ops

/-- The handler that keeps the operations instead of carrying them out. -/
def recorder : Handler Op (List Op) ε := fun op => modify (· ++ [op])

/-- A program over any state: it sees the state only through its handler. -/
abbrev Program (Op ε α : Type) := ∀ σ : Type, Handler Op σ ε → StateT σ (Except ε) α

theorem except_bind_ok {x : Except ε α} {f : α → Except ε β} {b : β} :
    (x >>= f) = .ok b ↔ ∃ a, x = .ok a ∧ f a = .ok b := by
  cases x with
  | error e => simp [bind, Except.bind]
  | ok a => simp [bind, Except.bind]

theorem except_map_ok {x : Except ε α} {f : α → β} {b : β} :
    x.map f = .ok b ↔ ∃ a, x = .ok a ∧ f a = b := by
  cases x with
  | error e => simp [Except.map]
  | ok a => simp [Except.map]

theorem ok_of_any {x : Except ε α} {p : α → Bool} (any : x.toOption.any p = true) :
    ∃ a, x = .ok a ∧ p a = true := by
  cases x with
  | error e => cases any
  | ok a => exact ⟨a, rfl, any⟩

theorem run_bind_ok {m : StateT σ (Except ε) α} {f : α → StateT σ (Except ε) β} {s s' : σ}
    {b : β} :
    (m >>= f).run s = .ok (b, s') ↔
      ∃ a s1, m.run s = .ok (a, s1) ∧ (f a).run s1 = .ok (b, s') := by
  rw [StateT.run_bind, except_bind_ok]
  simp only [Prod.exists]

theorem run_bind_error {m : StateT σ (Except ε) α} {f : α → StateT σ (Except ε) β} {s : σ}
    {e : ε} :
    (m >>= f).run s = .error e ↔
      m.run s = .error e ∨ ∃ a s1, m.run s = .ok (a, s1) ∧ (f a).run s1 = .error e := by
  rw [StateT.run_bind]
  rcases m.run s with e' | ⟨a, s1⟩
  · simp [bind, Except.bind]
  · constructor
    · exact fun h => Or.inr ⟨a, s1, rfl, h⟩
    · rintro (h | ⟨_, _, h, failed⟩)
      · cases h
      · cases h
        exact failed

theorem run_pure_ok {a b : α} {s s' : σ} :
    (pure a : StateT σ (Except ε) α).run s = .ok (b, s') ↔ a = b ∧ s = s' := by
  change (Except.ok (a, s) : Except ε (α × σ)) = .ok (b, s') ↔ _
  simp

theorem run_lift_ok {x : Except ε α} {a : α} {s s' : σ} :
    (liftM x : StateT σ (Except ε) α).run s = .ok (a, s') ↔ x = .ok a ∧ s = s' := by
  cases x with
  | error e =>
    change Except.error e = _ ↔ _
    simp
  | ok b =>
    change Except.ok (b, s) = _ ↔ _
    simp

theorem run_throw {e : ε} {a : α} {s s' : σ} :
    ¬ (throw e : StateT σ (Except ε) α).run s = .ok (a, s') := by
  intro h
  cases h

/-! ## How a program can fail -/

/-- If the computation fails, its error satisfies `P`. -/
def Errors (P : ε → Prop) (x : Except ε α) : Prop := ∀ e, x = .error e → P e

/-- If a run of the program fails, its error satisfies `P`. -/
def Raises (P : ε → Prop) (m : StateT σ (Except ε) α) : Prop := ∀ s, Errors P (m.run s)

section Errors

variable {P : ε → Prop}

theorem errors_ok (a : α) : Errors P (.ok a : Except ε α) := by
  intro e failed
  cases failed

theorem errors_error {e : ε} (holds : P e) : Errors P (.error e : Except ε α) := by
  intro e' failed
  cases failed
  exact holds

theorem Errors.bind {x : Except ε α} {f : α → Except ε β} (first : Errors P x)
    (rest : ∀ a, Errors P (f a)) : Errors P (x >>= f) := by
  cases x with
  | error e => exact errors_error (first e rfl)
  | ok a => exact rest a

theorem Errors.map {x : Except ε α} (first : Errors P x) (f : α → β) : Errors P (x.map f) := by
  cases x with
  | error e => exact errors_error (first e rfl)
  | ok a => exact errors_ok (f a)

theorem errors_ite {p : Prop} [Decidable p] {x y : Except ε α} (yes : Errors P x)
    (no : Errors P y) : Errors P (if p then x else y) := by
  split
  · exact yes
  · exact no

theorem run_lift_error {x : Except ε α} {s : σ} {e : ε} :
    (liftM x : StateT σ (Except ε) α).run s = .error e ↔ x = .error e := by
  cases x with
  | error e' =>
    change Except.error e' = _ ↔ _
    simp
  | ok a =>
    change Except.ok (a, s) = _ ↔ _
    simp

theorem raises_pure (a : α) : Raises P (pure a : StateT σ (Except ε) α) := fun _ => errors_ok _

theorem raises_lift {x : Except ε α} (errors : Errors P x) :
    Raises P (liftM x : StateT σ (Except ε) α) := by
  intro s e failed
  exact errors e (run_lift_error.mp failed)

theorem Raises.bind {m : StateT σ (Except ε) α} {f : α → StateT σ (Except ε) β}
    (first : Raises P m) (rest : ∀ a, Raises P (f a)) : Raises P (m >>= f) :=
  fun s => (first s).bind fun result => rest result.1 result.2

end Errors

@[simp] theorem perform_nil (h : Handler Op σ ε) : perform h [] = pure () := rfl

@[simp] theorem perform_cons (h : Handler Op σ ε) (op : Op) (ops : List Op) :
    perform h (op :: ops) = (do h op; perform h ops) := rfl

theorem perform_append (h : Handler Op σ ε) (front back : List Op) :
    perform h (front ++ back) = (do perform h front; perform h back) := by
  induction front with
  | nil => simp
  | cons op ops ih => simp [ih]

theorem perform_append_ok {h : Handler Op σ ε} {front back : List Op} {s s' : σ} :
    (perform h (front ++ back)).run s = .ok ((), s') ↔
      ∃ s1, (perform h front).run s = .ok ((), s1) ∧ (perform h back).run s1 = .ok ((), s') := by
  rw [perform_append, run_bind_ok]
  constructor
  · rintro ⟨_, s1, first, rest⟩
    exact ⟨s1, first, rest⟩
  · rintro ⟨s1, first, rest⟩
    exact ⟨(), s1, first, rest⟩

theorem perform_singleton (h : Handler Op σ ε) (op : Op) : perform h [op] = h op := by
  simp

/-- What every operation of a script preserves, the script preserves. -/
theorem perform_invariant (h : Handler Op σ ε) (P : σ → Prop) {ops : List Op}
    (step : ∀ op ∈ ops, ∀ s s', P s → (h op).run s = .ok ((), s') → P s') {s s' : σ}
    (start : P s) (run : (perform h ops).run s = .ok ((), s')) : P s' := by
  induction ops generalizing s with
  | nil =>
    obtain ⟨-, rfl⟩ := run_pure_ok.mp run
    exact start
  | cons op ops ih =>
    obtain ⟨_, s1, first, rest⟩ := run_bind_ok.mp run
    exact ih (fun o member => step o (List.mem_cons_of_mem _ member))
      (step op List.mem_cons_self s s1 start first) rest

/-- A map of states that carries each operation of one handler to the same operation of the
other carries whole scripts. -/
theorem perform_map {τ : Type} (h : Handler Op σ ε) (k : Handler Op τ ε) (f : σ → τ)
    (square : ∀ op s, ((h op).run s).map (Prod.map id f) = (k op).run (f s)) (ops : List Op)
    (s : σ) : ((perform h ops).run s).map (Prod.map id f) = (perform k ops).run (f s) := by
  induction ops generalizing s with
  | nil => rfl
  | cons op ops ih =>
    have first := square op s
    rw [perform_cons, perform_cons, StateT.run_bind, StateT.run_bind, ← first]
    cases (h op).run s with
    | error e => rfl
    | ok r => exact ih r.2

/-! ## Scripts -/

/-- Under every handler the program performs one fixed list of operations, each satisfying
`P`, and returns one fixed value, or under every handler it fails. -/
def Scripted (P : Op → Prop) (p : Program Op ε α) : Prop :=
  (∃ a ops, (∀ op ∈ ops, P op) ∧
    ∀ (σ : Type) (h : Handler Op σ ε), p σ h = (do perform h ops; pure a)) ∨
  (∀ (σ : Type) (h : Handler Op σ ε) (s : σ), ∃ e, (p σ h).run s = .error e)

/-- Under every handler the program performs one fixed list of operations and returns `a`. -/
def Yields (p : Program Op ε α) (a : α) : Prop :=
  ∃ ops, ∀ (σ : Type) (h : Handler Op σ ε), p σ h = (do perform h ops; pure a)

section Scripted

variable {P : Op → Prop}

theorem scripted_pure (a : α) : Scripted (ε := ε) P (fun _ _ => pure a) :=
  Or.inl ⟨a, [], by simp, fun _ _ => by simp⟩

theorem scripted_lift (x : Except ε α) :
    Scripted P (fun σ _ => (liftM x : StateT σ (Except ε) α)) := by
  cases x with
  | error e => exact Or.inr fun _ _ _ => ⟨e, rfl⟩
  | ok a => exact Or.inl ⟨a, [], by simp, fun _ _ => rfl⟩

theorem scripted_throw (e : ε) :
    Scripted P (fun σ _ => (throw e : StateT σ (Except ε) α)) :=
  Or.inr fun _ _ _ => ⟨e, rfl⟩

theorem scripted_op {op : Op} (formed : P op) : Scripted (ε := ε) P (fun _ h => h op) :=
  Or.inl ⟨(), [op], by simpa using formed, fun _ _ => by simp⟩

theorem Scripted.bind {p : Program Op ε α} {q : α → Program Op ε β} (hp : Scripted P p)
    (hq : ∀ a, Scripted P (q a)) : Scripted P (fun σ h => p σ h >>= fun a => q a σ h) := by
  rcases hp with ⟨a, ops, formed, hp⟩ | fails
  · rcases hq a with ⟨b, ops', formed', hq⟩ | fails
    · refine Or.inl ⟨b, ops ++ ops', ?_, ?_⟩
      · intro op member
        rcases List.mem_append.mp member with front | back
        · exact formed op front
        · exact formed' op back
      · intro σ h
        simp [hp, hq, perform_append]
    · right
      intro σ h s
      simp only [hp, bind_assoc, pure_bind]
      cases first : (perform h ops).run s with
      | error e => exact ⟨e, run_bind_error.mpr (Or.inl first)⟩
      | ok r =>
        obtain ⟨e, second⟩ := fails σ h r.2
        exact ⟨e, run_bind_error.mpr (Or.inr ⟨r.1, r.2, first, second⟩)⟩
  · right
    intro σ h s
    obtain ⟨e, failed⟩ := fails σ h s
    exact ⟨e, run_bind_error.mpr (Or.inl failed)⟩

end Scripted

theorem perform_recorder (ops kept : List Op) :
    (perform (recorder (ε := ε)) ops).run kept = .ok ((), kept ++ ops) := by
  induction ops generalizing kept with
  | nil => simpa using run_pure_ok.mpr ⟨rfl, rfl⟩
  | cons op ops ih =>
    refine run_bind_ok.mpr ⟨(), kept ++ [op], rfl, ?_⟩
    rw [ih, List.append_assoc]
    rfl

/-- The script of a program that does not fail: its value and its operations. -/
def script (p : Program Op ε α) : Except ε (α × List Op) := (p (List Op) recorder).run []

/-- A program that has a script carries it out under every handler. -/
theorem Scripted.eq_of_script {P : Op → Prop} {p : Program Op ε α} (hp : Scripted P p) {a : α}
    {ops : List Op} (written : script p = .ok (a, ops)) :
    (∀ op ∈ ops, P op) ∧
      ∀ (σ : Type) (h : Handler Op σ ε), p σ h = (do perform h ops; pure a) := by
  unfold script at written
  rcases hp with ⟨b, ops', formed, hp⟩ | fails
  · rw [hp] at written
    obtain ⟨_, kept, performed, returned⟩ := run_bind_ok.mp written
    obtain ⟨rfl, rfl⟩ := run_pure_ok.mp returned
    rw [perform_recorder] at performed
    cases performed
    exact ⟨formed, hp⟩
  · obtain ⟨e, failed⟩ := fails _ recorder []
    rw [written] at failed
    cases failed

/-- A run under any handler carries out the script. -/
theorem Scripted.run_ok {P : Op → Prop} {p : Program Op ε α} (hp : Scripted P p)
    {h : Handler Op σ ε} {s s' : σ} {a : α} (run : (p σ h).run s = .ok (a, s')) :
    ∃ ops, script p = .ok (a, ops) ∧ (∀ op ∈ ops, P op) ∧
      (perform h ops).run s = .ok ((), s') := by
  rcases hp with ⟨b, ops, formed, hp⟩ | fails
  · rw [hp] at run
    obtain ⟨_, s1, performed, returned⟩ := run_bind_ok.mp run
    obtain ⟨rfl, rfl⟩ := run_pure_ok.mp returned
    refine ⟨ops, ?_, formed, performed⟩
    unfold script
    rw [hp]
    exact run_bind_ok.mpr ⟨(), ops, perform_recorder ops [], rfl⟩
  · obtain ⟨e, failed⟩ := fails σ h s
    rw [run] at failed
    cases failed

section Yields

variable {P : Op → Prop}

/-- Recording never fails. -/
theorem Yields.record {p : Program Op ε α} {a : α} (hp : Yields p a) (kept : List Op) :
    ∃ kept', (p (List Op) recorder).run kept = .ok (a, kept') := by
  obtain ⟨ops, hp⟩ := hp
  rw [hp]
  exact ⟨kept ++ ops, run_bind_ok.mpr ⟨(), _, perform_recorder ops kept, rfl⟩⟩

theorem Yields.script {p : Program Op ε α} {a : α} (hp : Yields p a) :
    ∃ ops, Handler.script p = .ok (a, ops) := hp.record []

theorem yields_pure (a : α) : @Yields Op ε α (fun _ _ => pure a) a :=
  ⟨[], fun _ _ => by simp⟩

theorem yields_lift {x : Except ε α} {a : α} (ok : x = .ok a) :
    @Yields Op ε α (fun σ _ => (liftM x : StateT σ (Except ε) α)) a :=
  ⟨[], fun _ _ => by rw [ok]; rfl⟩

theorem yields_op (op : Op) : Yields (ε := ε) (fun _ h => h op) () :=
  ⟨[op], fun _ _ => by simp⟩

theorem yields_bind {p : Program Op ε α} {q : α → Program Op ε β} {a : α} {b : β}
    (hp : Yields p a) (hq : Yields (q a) b) :
    Yields (fun σ h => p σ h >>= fun a => q a σ h) b := by
  obtain ⟨ops, first⟩ := hp
  obtain ⟨ops', rest⟩ := hq
  exact ⟨ops ++ ops', fun σ h => by simp [first, rest, perform_append]⟩

end Yields

end Handler
