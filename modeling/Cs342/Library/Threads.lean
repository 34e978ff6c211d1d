import Mathlib
import Cs342.Library.System

/-!
# Threads with mutexes and condition variables

A program gives every thread an instruction at each of its program points; the threads share a
state and take turns in any order. Waiting on a condition variable releases a mutex until the thread
has been woken, by a signal or for no reason, and has locked it again.

Two rules carry the proofs about programs. `step_advance` is what a step does to the data, whatever
it does to the locks, and `step_pc` is the same for one thread. **`LockInv.reachable`** is the
discipline of the locks: if a program annotates its points with the mutexes held there, then the
owner of a mutex is the one thread that stands at a point where it is held.
-/

namespace Threads

/-- What a thread does next. -/
inductive Instr (Mutex Cond σ PC : Type) where
  | lock (m : Mutex) (next : PC)
  | unlock (m : Mutex) (next : PC)
  | wait (c : Cond) (m : Mutex) (next : PC)
  | signal (c : Cond) (next : PC)
  /-- Wait, with nothing locked, until the shared state allows to go on. -/
  | await (ready : σ → Bool) (next : PC)
  /-- Read and write the shared state; nothing is defined where the result is `none`. -/
  | exec (f : σ → Option (σ × PC))
  | halt

/-- Whether a thread is at work, asleep on a condition variable, or awake and about to lock the
mutex again. -/
inductive Mode (Mutex Cond : Type) where
  | running
  | sleeping (c : Cond) (m : Mutex)
  | woken (m : Mutex)

/-- The mutex a thread has given away by waiting. -/
def Mode.released {Mutex Cond : Type} : Mode Mutex Cond → Option Mutex
  | .running => none
  | .sleeping _ m => some m
  | .woken m => some m

/-- A sleeping thread wakes up. -/
def Mode.wake {Mutex Cond : Type} : Mode Mutex Cond → Mode Mutex Cond
  | .sleeping _ m => .woken m
  | mode => mode

/-- The instructions, and where the threads start. -/
structure Program (Thread Mutex Cond σ : Type) (PC : Thread → Type) where
  instr : (t : Thread) → PC t → Instr Mutex Cond σ (PC t)
  shared : σ
  entry : (t : Thread) → PC t

structure State (Thread Mutex Cond σ : Type) (PC : Thread → Type) where
  shared : σ
  pc : (t : Thread) → PC t
  mode : Thread → Mode Mutex Cond
  owner : Mutex → Option Thread
  waiters : Cond → List Thread

/-- A step: a thread moves, a thread moves and its signal wakes another one, a thread wakes up for
no reason. -/
inductive Label (Thread : Type) where
  | run (t : Thread)
  | wake (t w : Thread)
  | spurious (w : Thread)

variable {Thread Mutex Cond σ : Type} {PC : Thread → Type}
  [DecidableEq Thread] [DecidableEq Mutex] [DecidableEq Cond]

namespace State

def goto (s : State Thread Mutex Cond σ PC) (t : Thread) (next : PC t) :
    State Thread Mutex Cond σ PC :=
  { s with pc := Function.update s.pc t next }

def setOwner (s : State Thread Mutex Cond σ PC) (m : Mutex) (owner : Option Thread) :
    State Thread Mutex Cond σ PC :=
  { s with owner := Function.update s.owner m owner }

def sleep (s : State Thread Mutex Cond σ PC) (t : Thread) (c : Cond) (m : Mutex) :
    State Thread Mutex Cond σ PC :=
  { s with
    mode := Function.update s.mode t (.sleeping c m)
    waiters := Function.update s.waiters c (s.waiters c ++ [t]) }

def wakeUp (s : State Thread Mutex Cond σ PC) (w : Thread) (c : Cond) :
    State Thread Mutex Cond σ PC :=
  { s with
    mode := Function.update s.mode w (s.mode w).wake
    waiters := Function.update s.waiters c ((s.waiters c).erase w) }

def resume (s : State Thread Mutex Cond σ PC) (t : Thread) : State Thread Mutex Cond σ PC :=
  { s with mode := Function.update s.mode t .running }

omit [DecidableEq Mutex] [DecidableEq Cond] in
@[simp] theorem goto_pc_self (s : State Thread Mutex Cond σ PC) (t : Thread) (next : PC t) :
    (s.goto t next).pc t = next :=
  Function.update_self _ _ _

omit [DecidableEq Mutex] [DecidableEq Cond] in
theorem goto_pc_of_ne (s : State Thread Mutex Cond σ PC) {t u : Thread} (h : u ≠ t) (next : PC t) :
    (s.goto t next).pc u = s.pc u :=
  Function.update_of_ne h _ _

omit [DecidableEq Mutex] in
@[simp] theorem wakeUp_shared (s : State Thread Mutex Cond σ PC) (w : Thread) (c : Cond) :
    (s.wakeUp w c).shared = s.shared := rfl

omit [DecidableEq Mutex] in
@[simp] theorem wakeUp_pc (s : State Thread Mutex Cond σ PC) (w : Thread) (c : Cond) :
    (s.wakeUp w c).pc = s.pc := rfl

end State

namespace Program

variable (P : Program Thread Mutex Cond σ PC)

/-- Where a thread is woken by nobody, it goes on by itself. A signal with a thread to wake is a
step of its own kind; an unlock or a wait without the mutex is not defined. -/
def step : Label Thread → State Thread Mutex Cond σ PC → Option (State Thread Mutex Cond σ PC)
  | .run t, s =>
    match s.mode t with
    | .running =>
      match P.instr t (s.pc t) with
      | .lock m next =>
        if s.owner m = none then some ((s.setOwner m (some t)).goto t next) else none
      | .unlock m next =>
        if s.owner m = some t then some ((s.setOwner m none).goto t next) else none
      | .wait c m next =>
        if s.owner m = some t then some (((s.setOwner m none).sleep t c m).goto t next) else none
      | .signal c next => if s.waiters c = [] then some (s.goto t next) else none
      | .await ready next => if ready s.shared then some (s.goto t next) else none
      | .exec f =>
        match f s.shared with
        | some (shared, next) => some ({ s with shared := shared }.goto t next)
        | none => none
      | .halt => none
    | .woken m => if s.owner m = none then some ((s.setOwner m (some t)).resume t) else none
    | .sleeping _ _ => none
  | .wake t w, s =>
    match s.mode t, P.instr t (s.pc t) with
    | .running, .signal c next =>
      if w ∈ s.waiters c then some ((s.wakeUp w c).goto t next) else none
    | _, _ => none
  | .spurious w, s =>
    match s.mode w with
    | .sleeping c _ => some (s.wakeUp w c)
    | _ => none

/-- The threads as a system. -/
def system : System (State Thread Mutex Cond σ PC) (Label Thread) where
  init := {
    shared := P.shared
    pc := P.entry
    mode := fun _ => .running
    owner := fun _ => none
    waiters := fun _ => [] }
  step := P.step

end Program

/-! ## What a step does -/

/-- The steps, one constructor for each kind. -/
inductive Move (P : Program Thread Mutex Cond σ PC) (s : State Thread Mutex Cond σ PC) :
    State Thread Mutex Cond σ PC → Prop
  | lock {t : Thread} {m : Mutex} {next : PC t} :
      s.mode t = .running → P.instr t (s.pc t) = .lock m next → s.owner m = none →
      Move P s ((s.setOwner m (some t)).goto t next)
  | unlock {t : Thread} {m : Mutex} {next : PC t} :
      s.mode t = .running → P.instr t (s.pc t) = .unlock m next → s.owner m = some t →
      Move P s ((s.setOwner m none).goto t next)
  | wait {t : Thread} {c : Cond} {m : Mutex} {next : PC t} :
      s.mode t = .running → P.instr t (s.pc t) = .wait c m next → s.owner m = some t →
      Move P s (((s.setOwner m none).sleep t c m).goto t next)
  | signal {t : Thread} {c : Cond} {next : PC t} :
      s.mode t = .running → P.instr t (s.pc t) = .signal c next → s.waiters c = [] →
      Move P s (s.goto t next)
  | wake {t w : Thread} {c : Cond} {next : PC t} :
      s.mode t = .running → P.instr t (s.pc t) = .signal c next → w ∈ s.waiters c →
      Move P s ((s.wakeUp w c).goto t next)
  | await {t : Thread} {ready : σ → Bool} {next : PC t} :
      s.mode t = .running → P.instr t (s.pc t) = .await ready next → ready s.shared = true →
      Move P s (s.goto t next)
  | exec {t : Thread} {f : σ → Option (σ × PC t)} {shared : σ} {next : PC t} :
      s.mode t = .running → P.instr t (s.pc t) = .exec f → f s.shared = some (shared, next) →
      Move P s ({ s with shared := shared }.goto t next)
  | relock {t : Thread} {m : Mutex} :
      s.mode t = .woken m → s.owner m = none → Move P s ((s.setOwner m (some t)).resume t)
  | spurious {w : Thread} {c : Cond} {m : Mutex} :
      s.mode w = .sleeping c m → Move P s (s.wakeUp w c)

variable {P : Program Thread Mutex Cond σ PC}

theorem move_of_step {l : Label Thread} {s s' : State Thread Mutex Cond σ PC}
    (h : P.step l s = some s') : Move P s s' := by
  cases l with
  | run t =>
      simp only [Program.step] at h
      split at h
      · next hmode =>
          split at h
          · next hi => split at h <;> cases h; exact .lock hmode hi ‹_›
          · next hi => split at h <;> cases h; exact .unlock hmode hi ‹_›
          · next hi => split at h <;> cases h; exact .wait hmode hi ‹_›
          · next hi => split at h <;> cases h; exact .signal hmode hi ‹_›
          · next hi => split at h <;> cases h; exact .await hmode hi ‹_›
          · next hi => split at h <;> cases h; exact .exec hmode hi ‹_›
          · cases h
      · next hmode => split at h <;> cases h; exact .relock hmode ‹_›
      · cases h
  | wake t w =>
      simp only [Program.step] at h
      split at h
      · next hmode hi => split at h <;> cases h; exact .wake hmode hi ‹_›
      · cases h
  | spurious w =>
      simp only [Program.step] at h
      split at h
      · next hmode => cases h; exact .spurious hmode
      · cases h

/-! ## When a thread can take a step -/

theorem step_lock {s : State Thread Mutex Cond σ PC} {t : Thread} {m : Mutex} {next : PC t}
    (hmode : s.mode t = .running) (hi : P.instr t (s.pc t) = .lock m next)
    (hfree : s.owner m = none) :
    P.step (.run t) s = some ((s.setOwner m (some t)).goto t next) := by
  simp only [Program.step, hmode, hi]
  exact if_pos hfree

theorem step_unlock {s : State Thread Mutex Cond σ PC} {t : Thread} {m : Mutex} {next : PC t}
    (hmode : s.mode t = .running) (hi : P.instr t (s.pc t) = .unlock m next)
    (howner : s.owner m = some t) :
    P.step (.run t) s = some ((s.setOwner m none).goto t next) := by
  simp only [Program.step, hmode, hi]
  exact if_pos howner

/-- A signal wakes somebody or nobody. -/
theorem exists_step_signal {s : State Thread Mutex Cond σ PC} {t : Thread} {c : Cond} {next : PC t}
    (hmode : s.mode t = .running) (hi : P.instr t (s.pc t) = .signal c next) :
    ∃ l s', (l = .run t ∨ ∃ w, l = .wake t w) ∧ P.step l s = some s' := by
  cases hw : s.waiters c with
  | nil =>
      refine ⟨.run t, s.goto t next, Or.inl rfl, ?_⟩
      simp only [Program.step, hmode, hi]
      exact if_pos hw
  | cons w rest =>
      refine ⟨.wake t w, (s.wakeUp w c).goto t next, Or.inr ⟨w, rfl⟩, ?_⟩
      simp only [Program.step, hmode, hi]
      exact if_pos (by rw [hw]; exact List.mem_cons_self)

theorem step_exec {s : State Thread Mutex Cond σ PC} {t : Thread} {f : σ → Option (σ × PC t)}
    {shared : σ} {next : PC t} (hmode : s.mode t = .running) (hi : P.instr t (s.pc t) = .exec f)
    (hf : f s.shared = some (shared, next)) :
    P.step (.run t) s = some ({ s with shared := shared }.goto t next) := by
  simp only [Program.step, hmode, hi, hf]

/-! ## The data -/

/-- What an instruction does to the shared state, and where it leads, whatever it does to the
locks. -/
def Instr.advance {Mutex Cond σ PC : Type} : Instr Mutex Cond σ PC → σ → Option (σ × PC)
  | .lock _ next, shared => some (shared, next)
  | .unlock _ next, shared => some (shared, next)
  | .wait _ _ next, shared => some (shared, next)
  | .signal _ next, shared => some (shared, next)
  | .await ready next, shared => if ready shared then some (shared, next) else none
  | .exec f, shared => f shared
  | .halt, _ => none

/-- **A step, seen from the data**: nothing happens, or one thread executes its instruction. -/
theorem step_advance {l : Label Thread} {s s' : State Thread Mutex Cond σ PC}
    (h : P.step l s = some s') :
    (s'.shared = s.shared ∧ s'.pc = s.pc) ∨
      ∃ t next, s.mode t = .running ∧
        (P.instr t (s.pc t)).advance s.shared = some (s'.shared, next) ∧
        s'.pc = Function.update s.pc t next := by
  cases move_of_step h with
  | lock hmode hi _ => exact Or.inr ⟨_, _, hmode, by rw [hi]; rfl, rfl⟩
  | unlock hmode hi _ => exact Or.inr ⟨_, _, hmode, by rw [hi]; rfl, rfl⟩
  | wait hmode hi _ => exact Or.inr ⟨_, _, hmode, by rw [hi]; rfl, rfl⟩
  | signal hmode hi _ => exact Or.inr ⟨_, _, hmode, by rw [hi]; rfl, rfl⟩
  | wake hmode hi _ => exact Or.inr ⟨_, _, hmode, by rw [hi]; rfl, rfl⟩
  | await hmode hi hready => exact Or.inr ⟨_, _, hmode, by rw [hi]; exact if_pos hready, rfl⟩
  | exec hmode hi hf => exact Or.inr ⟨_, _, hmode, by rw [hi]; exact hf, rfl⟩
  | relock _ _ => exact Or.inl ⟨rfl, rfl⟩
  | spurious _ => exact Or.inl ⟨rfl, rfl⟩

/-- **A step, seen from one thread**: the thread stays where it is, or it executes its
instruction. -/
theorem step_pc {l : Label Thread} {s s' : State Thread Mutex Cond σ PC}
    (h : P.step l s = some s') (t : Thread) :
    s'.pc t = s.pc t ∨ (s.mode t = .running ∧
      (P.instr t (s.pc t)).advance s.shared = some (s'.shared, s'.pc t)) := by
  rcases step_advance h with ⟨-, hpc⟩ | ⟨u, next, hmode, hadvance, hpc⟩
  · left
    rw [hpc]
  · by_cases hu : t = u
    · subst hu
      right
      rw [hpc, Function.update_self]
      exact ⟨hmode, hadvance⟩
    · left
      rw [hpc, Function.update_of_ne hu]

/-- A thread that has ended stays where it is. -/
theorem pc_of_halt {l : Label Thread} {s s' : State Thread Mutex Cond σ PC}
    (h : P.step l s = some s') {t : Thread} (hhalt : P.instr t (s.pc t) = .halt) :
    s'.pc t = s.pc t := by
  rcases step_pc h t with hpc | ⟨-, hadvance⟩
  · exact hpc
  · rw [hhalt] at hadvance
    cases hadvance

/-- **A step, seen with its label**: a sleeping thread wakes up for no reason, a woken one has its
mutex again, a thread falls asleep, wakes another one, or executes an instruction. -/
inductive Turn (P : Program Thread Mutex Cond σ PC) (s : State Thread Mutex Cond σ PC) :
    Label Thread → State Thread Mutex Cond σ PC → Prop
  | spurious {w : Thread} {c : Cond} {m : Mutex} (hmode : s.mode w = .sleeping c m) :
      Turn P s (.spurious w) (s.wakeUp w c)
  | relock {t : Thread} {m : Mutex} (hmode : s.mode t = .woken m) :
      Turn P s (.run t) ((s.setOwner m (some t)).resume t)
  | wait {t : Thread} {c : Cond} {m : Mutex} {next : PC t} (hmode : s.mode t = .running)
      (hinstr : P.instr t (s.pc t) = .wait c m next) :
      Turn P s (.run t) (((s.setOwner m none).sleep t c m).goto t next)
  | wake {t w : Thread} {c : Cond} {next : PC t} (hmode : s.mode t = .running)
      (hinstr : P.instr t (s.pc t) = .signal c next) :
      Turn P s (.wake t w) ((s.goto t next).wakeUp w c)
  | go {t : Thread} {shared : σ} {next : PC t} {owner : Mutex → Option Thread}
      (hmode : s.mode t = .running) (hawake : ∀ c m p, P.instr t (s.pc t) ≠ .wait c m p)
      (hadvance : (P.instr t (s.pc t)).advance s.shared = some (shared, next)) :
      Turn P s (.run t) ({ s with shared := shared, owner := owner }.goto t next)

theorem turn_of_step {l : Label Thread} {s s' : State Thread Mutex Cond σ PC}
    (h : P.step l s = some s') : Turn P s l s' := by
  cases l with
  | run t =>
      simp only [Program.step] at h
      split at h
      · next hmode =>
          split at h
          · next hi => split at h <;> cases h; exact .go hmode (by simp [hi]) (by rw [hi]; rfl)
          · next hi => split at h <;> cases h; exact .go hmode (by simp [hi]) (by rw [hi]; rfl)
          · next hi => split at h <;> cases h; exact .wait hmode hi
          · next hi => split at h <;> cases h; exact .go hmode (by simp [hi]) (by rw [hi]; rfl)
          · next ready next hi =>
              split at h <;> cases h
              next hready => exact .go hmode (by simp [hi]) (by rw [hi]; exact if_pos hready)
          · next hi =>
              split at h <;> cases h
              next hf => exact .go hmode (by simp [hi]) (by rw [hi]; exact hf)
          · cases h
      · next hmode => split at h <;> cases h; exact .relock hmode
      · cases h
  | wake t w =>
      simp only [Program.step] at h
      split at h
      · next hmode hi => split at h <;> cases h; exact .wake hmode hi
      · cases h
  | spurious w =>
      simp only [Program.step] at h
      split at h
      · next hmode => cases h; exact .spurious hmode
      · cases h

/-- Who does not take the step stays where he is. -/
theorem Turn.pc_of_ne {l : Label Thread} {s s' : State Thread Mutex Cond σ PC}
    (hturn : Turn P s l s') {t : Thread} (hl : l ≠ .run t) (hl' : ∀ w, l ≠ .wake t w) :
    s'.pc t = s.pc t := by
  cases hturn with
  | spurious hmode => rfl
  | relock hmode => rfl
  | @wait u c m next hmode hinstr =>
      exact State.goto_pc_of_ne _ (by rintro rfl; exact hl rfl) _
  | @wake u w c next hmode hinstr =>
      exact State.goto_pc_of_ne s (by rintro rfl; exact hl' w rfl) next
  | @go u shared next owner hmode hawake hadvance =>
      exact State.goto_pc_of_ne _ (by rintro rfl; exact hl rfl) _

/-- The same threads with other data. -/
def State.mapShared (s : State Thread Mutex Cond σ PC) (g : σ → σ) :
    State Thread Mutex Cond σ PC :=
  { s with shared := g s.shared }

section MapShared

variable (s : State Thread Mutex Cond σ PC) (g : σ → σ)

omit [DecidableEq Thread] [DecidableEq Mutex] [DecidableEq Cond] in
@[simp] theorem State.mapShared_shared : (s.mapShared g).shared = g s.shared := rfl

omit [DecidableEq Thread] [DecidableEq Mutex] [DecidableEq Cond] in
@[simp] theorem State.mapShared_pc : (s.mapShared g).pc = s.pc := rfl

omit [DecidableEq Thread] [DecidableEq Mutex] [DecidableEq Cond] in
@[simp] theorem State.mapShared_mode : (s.mapShared g).mode = s.mode := rfl

end MapShared

/-- **Locality.** Where the next instructions commute with a change of the data, so does a step. -/
theorem step_mapShared {g : σ → σ} {s : State Thread Mutex Cond σ PC}
    (h : ∀ t, s.mode t = .running → (P.instr t (s.pc t)).advance (g s.shared)
      = ((P.instr t (s.pc t)).advance s.shared).map fun r => (g r.1, r.2)) (l : Label Thread) :
    P.step l (s.mapShared g) = (P.step l s).map fun s' => s'.mapShared g := by
  cases l with
  | run t =>
      simp only [Program.step, State.mapShared_mode, State.mapShared_pc]
      cases hmode : s.mode t with
      | sleeping c m => rfl
      | woken m => dsimp only; rw [Option.map_if]; rfl
      | running =>
          have hadvance := h t hmode
          cases hi : P.instr t (s.pc t) with
          | lock m next => dsimp only; rw [Option.map_if]; rfl
          | unlock m next => dsimp only; rw [Option.map_if]; rfl
          | wait c m next => dsimp only; rw [Option.map_if]; rfl
          | signal c next => dsimp only; rw [Option.map_if]; rfl
          | await ready next =>
              rw [hi] at hadvance
              have hready : ready (g s.shared) = ready s.shared := by
                simp only [Instr.advance] at hadvance
                cases hg : ready (g s.shared) <;> cases hs : ready s.shared <;>
                  simp [hg, hs] at hadvance <;> rfl
              simp only [State.mapShared_shared, hready]
              rw [Option.map_if]
              rfl
          | exec f =>
              rw [hi] at hadvance
              have hf : f (g s.shared) = (f s.shared).map fun r => (g r.1, r.2) := hadvance
              dsimp only [State.mapShared_shared]
              rw [hf]
              cases f s.shared <;> rfl
          | halt => rfl
  | wake t w =>
      simp only [Program.step, State.mapShared_mode, State.mapShared_pc]
      cases s.mode t with
      | running =>
          cases P.instr t (s.pc t) with
          | signal c next => dsimp only; rw [Option.map_if]; rfl
          | _ => rfl
      | _ => rfl
  | spurious w =>
      simp only [Program.step, State.mapShared_mode]
      cases s.mode w <;> rfl

/-! ## The locks -/

/-- What an instruction at `p` does to the mutexes held, if every point is to have its own set. -/
def Instr.Respects {Mutex Cond σ PC : Type} (holds : PC → Mutex → Prop) (p : PC) :
    Instr Mutex Cond σ PC → Prop
  | .lock m next => ∀ n, holds next n ↔ n = m ∨ holds p n
  | .unlock m next => ∀ n, holds next n ↔ n ≠ m ∧ holds p n
  | .wait _ m next => holds p m ∧ ∀ n, holds next n ↔ holds p n
  | .signal _ next => ∀ n, holds next n ↔ holds p n
  | .await _ next => ∀ n, holds next n ↔ holds p n
  | .exec f => ∀ shared shared' next, f shared = some (shared', next) →
      ∀ n, holds next n ↔ holds p n
  | .halt => True

/-- An annotation of the program points with the mutexes held there. -/
structure Discipline (P : Program Thread Mutex Cond σ PC)
    (holds : (t : Thread) → PC t → Mutex → Prop) : Prop where
  entry : ∀ t m, ¬ holds t (P.entry t) m
  respects : ∀ t p, (P.instr t p).Respects (holds t) p

/-- A thread owns the mutexes held where it stands, but for one it has given away by waiting. -/
structure LockInv (P : Program Thread Mutex Cond σ PC)
    (holds : (t : Thread) → PC t → Mutex → Prop) (s : State Thread Mutex Cond σ PC) : Prop where
  waited : ∀ t m, (s.mode t).released = some m → ∃ p c, P.instr t p = .wait c m (s.pc t)
  owner_iff : ∀ t m, s.owner m = some t ↔ holds t (s.pc t) m ∧ (s.mode t).released ≠ some m

section Locks

variable {holds : (t : Thread) → PC t → Mutex → Prop}

omit [DecidableEq Thread] [DecidableEq Mutex] [DecidableEq Cond] in
/-- What one thread does has to be checked for that thread, if the others stay where they are with
the mutexes they own. -/
theorem LockInv.of_mover {s s' : State Thread Mutex Cond σ PC} (hinv : LockInv P holds s)
    (t : Thread) (hpc : ∀ u, u ≠ t → s'.pc u = s.pc u)
    (hmode : ∀ u, u ≠ t → (s'.mode u).released = (s.mode u).released)
    (howner : ∀ u, u ≠ t → ∀ m, s'.owner m = some u ↔ s.owner m = some u)
    (hwaited : ∀ m, (s'.mode t).released = some m → ∃ p c, P.instr t p = .wait c m (s'.pc t))
    (hself : ∀ m, s'.owner m = some t ↔
      holds t (s'.pc t) m ∧ (s'.mode t).released ≠ some m) :
    LockInv P holds s' := by
  refine ⟨fun u m hu => ?_, fun u m => ?_⟩
  · by_cases h : u = t
    · subst h
      exact hwaited m hu
    · rw [hmode u h] at hu
      rw [hpc u h]
      exact hinv.waited u m hu
  · by_cases h : u = t
    · subst h
      exact hself m
    · rw [howner u h, hpc u h, hmode u h]
      exact hinv.owner_iff u m

theorem Mode.released_wake {Mutex Cond : Type} (mode : Mode Mutex Cond) : mode.wake.released = mode.released := by
  cases mode <;> rfl

omit [DecidableEq Mutex] in
theorem released_wakeUp (s : State Thread Mutex Cond σ PC) (w u : Thread) (c : Cond) :
    ((s.wakeUp w c).mode u).released = (s.mode u).released := by
  show (Function.update s.mode w (s.mode w).wake u).released = _
  by_cases h : u = w
  · subst h
    rw [Function.update_self, Mode.released_wake]
  · rw [Function.update_of_ne h]

omit [DecidableEq Thread] in
theorem owner_update {owner : Mutex → Option Thread} {m n : Mutex} {t u : Thread} (hu : u ≠ t)
    (hfree : owner m = none ∨ owner m = some t) {new : Option Thread}
    (hnew : new = none ∨ new = some t) :
    Function.update owner m new n = some u ↔ owner n = some u := by
  rw [Function.update_apply]
  split
  · next h =>
      subst h
      rcases hnew with rfl | rfl <;> rcases hfree with hf | hf <;> simp [hf, Ne.symm hu]
  · rfl

omit [DecidableEq Thread] [DecidableEq Cond] in
/-- One thread takes or gives away a mutex that no other thread owns: what has to be checked is that
mutex, and that nothing changes about the others. -/
theorem LockInv.of_handover {s s' : State Thread Mutex Cond σ PC} (hinv : LockInv P holds s)
    (t : Thread) (m : Mutex) {new : Option Thread}
    (hfree : s.owner m = none ∨ s.owner m = some t) (hnew : new = none ∨ new = some t)
    (howner : s'.owner = Function.update s.owner m new) (hpc : ∀ u, u ≠ t → s'.pc u = s.pc u)
    (hmode : ∀ u, u ≠ t → (s'.mode u).released = (s.mode u).released)
    (hwaited : ∀ n, (s'.mode t).released = some n → ∃ p c, P.instr t p = .wait c n (s'.pc t))
    (hmutex : new = some t ↔ holds t (s'.pc t) m ∧ (s'.mode t).released ≠ some m)
    (hrest : ∀ n, n ≠ m → ((holds t (s'.pc t) n ∧ (s'.mode t).released ≠ some n) ↔
      holds t (s.pc t) n ∧ (s.mode t).released ≠ some n)) : LockInv P holds s' := by
  apply hinv.of_mover t hpc hmode
  · -- the other threads own what they owned
    intro u h n
    rw [howner]
    exact owner_update h hfree hnew
  · exact hwaited
  · intro n
    rw [howner]
    by_cases h : n = m
    · subst h
      rw [Function.update_self, hmutex]
    · rw [Function.update_of_ne h, hrest n h]
      exact hinv.owner_iff t n

omit [DecidableEq Mutex] [DecidableEq Cond] in
/-- A running thread moves without a lock or an unlock. -/
theorem LockInv.goto {s s' : State Thread Mutex Cond σ PC} (hinv : LockInv P holds s) {t : Thread}
    {next : PC t} (hrun : s.mode t = .running)
    (hholds : ∀ n, holds t next n ↔ holds t (s.pc t) n)
    (hpc : s'.pc = Function.update s.pc t next) (howner : s'.owner = s.owner)
    (hmode : ∀ u, (s'.mode u).released = (s.mode u).released) : LockInv P holds s' := by
  have hnone : (s'.mode t).released = none := by rw [hmode t, hrun]; rfl
  apply hinv.of_mover t
  · intro u h
    rw [hpc, Function.update_of_ne h]
  · exact fun u _ => hmode u
  · intro u _ m
    rw [howner]
  · intro m hm
    rw [hnone] at hm
    cases hm
  · intro m
    rw [hpc, Function.update_self, hholds, howner, hmode]
    exact hinv.owner_iff t m

/-- **Every step keeps to the discipline**, one case for each kind of step. -/
theorem LockInv.step (hd : Discipline P holds) {l : Label Thread}
    {s s' : State Thread Mutex Cond σ PC} (hinv : LockInv P holds s)
    (hstep : P.step l s = some s') : LockInv P holds s' := by
  have hrespects := fun t => hd.respects t (s.pc t)
  -- a lock, an unlock, a wait and the end of a wait hand over one mutex; the others hand over none
  cases move_of_step hstep with
  | @lock t m next hmode hi hfree =>
      have hlock := hrespects t
      rw [hi] at hlock
      have hpc : ((s.setOwner m (some t)).goto t next).pc t = next := Function.update_self _ _ _
      have hnone : ((s.setOwner m (some t)).goto t next).mode t = .running := hmode
      apply hinv.of_handover t m (Or.inl hfree) (Or.inr rfl) rfl
      · exact fun u h => Function.update_of_ne h _ _
      · exact fun u _ => rfl
      · intro n hn
        rw [hnone] at hn
        cases hn
      · rw [hpc, hnone, hlock]
        simp [Mode.released]
      · intro n h
        rw [hpc, hnone, hlock, hmode]
        simp [h]
  | @unlock t m next hmode hi howner =>
      have hunlock := hrespects t
      rw [hi] at hunlock
      have hpc : ((s.setOwner m none).goto t next).pc t = next := Function.update_self _ _ _
      have hnone : ((s.setOwner m none).goto t next).mode t = .running := hmode
      apply hinv.of_handover t m (Or.inr howner) (Or.inl rfl) rfl
      · exact fun u h => Function.update_of_ne h _ _
      · exact fun u _ => rfl
      · intro n hn
        rw [hnone] at hn
        cases hn
      · rw [hpc, hunlock]
        simp
      · intro n h
        rw [hpc, hnone, hunlock, hmode]
        simp [h]
  | @wait t c m next hmode hi howner =>
      have hwait := hrespects t
      rw [hi] at hwait
      have hpc : (((s.setOwner m none).sleep t c m).goto t next).pc t = next :=
        Function.update_self _ _ _
      have hasleep : (((s.setOwner m none).sleep t c m).goto t next).mode t = .sleeping c m :=
        Function.update_self _ _ _
      apply hinv.of_handover t m (Or.inr howner) (Or.inl rfl) rfl
      · exact fun u h => Function.update_of_ne h _ _
      · exact fun u h => congrArg Mode.released (Function.update_of_ne h _ _)
      · -- what is released is the mutex of this very wait
        intro n hn
        rw [hasleep] at hn
        cases hn
        exact ⟨s.pc t, c, by rw [hpc, hi]⟩
      · rw [hasleep]
        simp [Mode.released]
      · intro n h
        rw [hpc, hasleep, hwait.2, hmode]
        simp [Mode.released, Ne.symm h]
  | @signal t c next hmode hi _ =>
      have hsignal := hrespects t
      rw [hi] at hsignal
      exact hinv.goto hmode hsignal rfl rfl fun _ => rfl
  | @wake t w c next hmode hi _ =>
      have hsignal := hrespects t
      rw [hi] at hsignal
      exact hinv.goto hmode hsignal rfl rfl fun u => released_wakeUp s w u c
  | @await t ready next hmode hi _ =>
      have hawait := hrespects t
      rw [hi] at hawait
      exact hinv.goto hmode hawait rfl rfl fun _ => rfl
  | @exec t f shared next hmode hi hf =>
      have hexec := hrespects t
      rw [hi] at hexec
      exact hinv.goto hmode (hexec _ _ _ hf) rfl rfl fun _ => rfl
  | @relock t m hmode hfree =>
      have hawake : ((s.setOwner m (some t)).resume t).mode t = .running :=
        Function.update_self _ _ _
      -- the mutex was held at the wait, and is held where the wait leads
      obtain ⟨p, c, hp⟩ := hinv.waited t m (by rw [hmode]; rfl)
      have hwait := hd.respects t p
      rw [hp] at hwait
      have hheld : holds t (s.pc t) m := (hwait.2 m).mpr hwait.1
      apply hinv.of_handover t m (Or.inl hfree) (Or.inr rfl) rfl
      · exact fun u _ => rfl
      · exact fun u h => congrArg Mode.released (Function.update_of_ne h _ _)
      · intro n hn
        rw [hawake] at hn
        cases hn
      · rw [hawake]
        show some t = some t ↔ holds t (s.pc t) m ∧ _
        simp [Mode.released, hheld]
      · intro n h
        rw [hawake, hmode]
        show holds t (s.pc t) n ∧ _ ↔ _
        simp [Mode.released, Ne.symm h]
  | @spurious w c m _ =>
      refine ⟨?_, ?_⟩
      · intro t n hn
        rw [released_wakeUp] at hn
        exact hinv.waited t n hn
      · intro t n
        rw [released_wakeUp]
        exact hinv.owner_iff t n

omit [DecidableEq Thread] [DecidableEq Mutex] [DecidableEq Cond] in
/-- A thread is at work where no wait leads to. -/
theorem LockInv.running {s : State Thread Mutex Cond σ PC} (hinv : LockInv P holds s) {t : Thread}
    (ht : ∀ p c m, P.instr t p ≠ .wait c m (s.pc t)) : s.mode t = .running := by
  cases hmode : s.mode t with
  | running => rfl
  | sleeping c m =>
      obtain ⟨p, c, hp⟩ := hinv.waited t m (by rw [hmode]; rfl)
      exact absurd hp (ht p c m)
  | woken m =>
      obtain ⟨p, c, hp⟩ := hinv.waited t m (by rw [hmode]; rfl)
      exact absurd hp (ht p c m)

/-- **The discipline holds in every reachable state.** -/
theorem LockInv.reachable (hd : Discipline P holds) {s : State Thread Mutex Cond σ PC}
    (hs : P.system.Reachable s) : LockInv P holds s := by
  apply hs.invariant
  · refine ⟨?_, ?_⟩
    · intro t m hm
      cases hm
    · intro t m
      constructor
      · intro h
        cases h
      · intro h
        exact absurd h.1 (hd.entry t m)
  · exact fun s l s' hinv hstep => hinv.step hd hstep

omit [DecidableEq Thread] [DecidableEq Mutex] [DecidableEq Cond] in
/-- A mutex is held in one place, among the places that no wait leads to. -/
theorem LockInv.exclusive {s : State Thread Mutex Cond σ PC} (hinv : LockInv P holds s)
    {t u : Thread} {m : Mutex} (ht : holds t (s.pc t) m) (hu : holds u (s.pc u) m)
    (htw : ∀ p c, P.instr t p ≠ .wait c m (s.pc t)) (huw : ∀ p c, P.instr u p ≠ .wait c m (s.pc u)) :
    t = u := by
  have howns : ∀ v, holds v (s.pc v) m → (∀ p c, P.instr v p ≠ .wait c m (s.pc v)) →
      s.owner m = some v := by
    intro v hv hvw
    apply (hinv.owner_iff v m).mpr
    refine ⟨hv, fun hr => ?_⟩
    obtain ⟨p, c, hp⟩ := hinv.waited v m hr
    exact hvw p c hp
  have := howns t ht htw
  rw [howns u hu huw] at this
  exact (Option.some.inj this).symm

end Locks

/-! ## Waiting -/

/-- Who sleeps has waited, and is listed, once, where a signal finds it. -/
structure WaitInv (P : Program Thread Mutex Cond σ PC) (s : State Thread Mutex Cond σ PC) : Prop where
  waited : ∀ t c m, s.mode t = .sleeping c m → ∃ p, P.instr t p = .wait c m (s.pc t)
  mem_iff : ∀ c t, t ∈ s.waiters c ↔ ∃ m, s.mode t = .sleeping c m
  nodup : ∀ c, (s.waiters c).Nodup

section Waiting

variable {l : Label Thread} {s s' : State Thread Mutex Cond σ PC}

omit [DecidableEq Thread] [DecidableEq Mutex] [DecidableEq Cond] in
/-- Nobody falls asleep or wakes up, and who sleeps stays where he is. -/
theorem WaitInv.of_awake (hinv : WaitInv P s)
    (hpc : ∀ u c m, s.mode u = .sleeping c m → s'.pc u = s.pc u)
    (hmode : ∀ u c m, s'.mode u = .sleeping c m ↔ s.mode u = .sleeping c m)
    (hwaiters : s'.waiters = s.waiters) : WaitInv P s' := by
  refine ⟨?_, ?_, by rw [hwaiters]; exact hinv.nodup⟩
  · intro u c m hu
    rw [hmode] at hu
    rw [hpc u c m hu]
    exact hinv.waited u c m hu
  · intro c u
    simp only [hwaiters, hmode]
    exact hinv.mem_iff c u

omit [DecidableEq Mutex] in
/-- A thread wakes up. -/
theorem WaitInv.of_wakeUp (hinv : WaitInv P s) {w : Thread} {c : Cond} (hw : w ∈ s.waiters c)
    (hpc : ∀ u c m, s.mode u = .sleeping c m → s'.pc u = s.pc u)
    (hmode : s'.mode = (s.wakeUp w c).mode) (hwaiters : s'.waiters = (s.wakeUp w c).waiters) :
    WaitInv P s' := by
  obtain ⟨m, hsleeping⟩ := (hinv.mem_iff c w).mp hw
  have hmode' : ∀ u c' m', s'.mode u = .sleeping c' m' ↔ u ≠ w ∧ s.mode u = .sleeping c' m' := by
    intro u c' m'
    rw [hmode]
    show Function.update s.mode w (s.mode w).wake u = _ ↔ _
    by_cases h : u = w
    · subst h
      rw [Function.update_self, hsleeping]
      simp [Mode.wake]
    · rw [Function.update_of_ne h]
      simp [h]
  have hwaiters' : ∀ c', s'.waiters c'
      = if c' = c then (s.waiters c).erase w else s.waiters c' := by
    intro c'
    rw [hwaiters]
    exact Function.update_apply _ _ _ _
  refine ⟨?_, ?_, ?_⟩
  · intro u c' m' hu
    obtain ⟨-, hu⟩ := (hmode' u c' m').mp hu
    rw [hpc u c' m' hu]
    exact hinv.waited u c' m' hu
  · intro c' u
    rw [hwaiters']
    simp only [hmode']
    split
    · next h =>
        subst h
        rw [(hinv.nodup c').mem_erase_iff, hinv.mem_iff]
        simp
    · next h =>
        rw [hinv.mem_iff]
        constructor
        · rintro ⟨m', hu⟩
          refine ⟨m', ?_, hu⟩
          rintro rfl
          rw [hsleeping] at hu
          cases hu
          exact h rfl
        · rintro ⟨m', -, hu⟩
          exact ⟨m', hu⟩
  · intro c'
    rw [hwaiters']
    split
    · exact (hinv.nodup c).erase w
    · exact hinv.nodup c'

/-- A thread falls asleep. -/
theorem WaitInv.sleep (hinv : WaitInv P s) {t : Thread} {c : Cond} {m : Mutex} {next : PC t}
    (hmode : s.mode t = .running) (hi : P.instr t (s.pc t) = .wait c m next) :
    WaitInv P (((s.setOwner m none).sleep t c m).goto t next) := by
  have hfresh : ∀ c', t ∉ s.waiters c' := by
    intro c' h
    obtain ⟨m', hm'⟩ := (hinv.mem_iff c' t).mp h
    rw [hmode] at hm'
    cases hm'
  have hmode' : ∀ u, (((s.setOwner m none).sleep t c m).goto t next).mode u
      = if u = t then .sleeping c m else s.mode u := fun u => Function.update_apply _ _ _ _
  have hwaiters : ∀ c', (((s.setOwner m none).sleep t c m).goto t next).waiters c'
      = if c' = c then s.waiters c ++ [t] else s.waiters c' :=
    fun c' => Function.update_apply _ _ _ _
  refine ⟨?_, ?_, ?_⟩
  · intro u c' m' hu
    rw [hmode'] at hu
    by_cases h : u = t
    · subst h
      rw [if_pos rfl] at hu
      cases hu
      exact ⟨s.pc u, by rw [State.goto_pc_self]; exact hi⟩
    · rw [if_neg h] at hu
      rw [State.goto_pc_of_ne _ h]
      exact hinv.waited u c' m' hu
  · intro c' u
    rw [hwaiters, hmode']
    have hmem := hinv.mem_iff c' u
    by_cases h : u = t
    · subst h
      rw [if_pos rfl]
      split
      · next hc => simp [hc]
      · next hc => simp [hfresh c', Ne.symm hc]
    · rw [if_neg h]
      split
      · next hc => subst hc; simpa [h] using hmem
      · exact hmem
  · intro c'
    rw [hwaiters]
    split
    · rw [List.nodup_append]
      exact ⟨hinv.nodup c, List.nodup_singleton t, by
        intro a ha b hb
        rw [List.mem_singleton] at hb
        rintro rfl
        exact hfresh c (hb ▸ ha)⟩
    · exact hinv.nodup c'

/-- **Every step keeps the lists of waiting threads.** -/
theorem WaitInv.step (hinv : WaitInv P s) (hstep : P.step l s = some s') : WaitInv P s' := by
  -- a running thread moves, the others stay
  have hmoves : ∀ {t : Thread} {next : PC t}, s.mode t = .running → ∀ u c m,
      s.mode u = .sleeping c m → Function.update s.pc t next u = s.pc u := by
    intro t next hrun u c m hu
    apply Function.update_of_ne
    rintro rfl
    rw [hrun] at hu
    cases hu
  cases move_of_step hstep with
  | lock hmode _ _ => exact hinv.of_awake (hmoves hmode) (fun _ _ _ => Iff.rfl) rfl
  | unlock hmode _ _ => exact hinv.of_awake (hmoves hmode) (fun _ _ _ => Iff.rfl) rfl
  | wait hmode hi _ => exact hinv.sleep hmode hi
  | signal hmode _ _ => exact hinv.of_awake (hmoves hmode) (fun _ _ _ => Iff.rfl) rfl
  | wake hmode _ hw => exact hinv.of_wakeUp hw (hmoves hmode) rfl rfl
  | await hmode _ _ => exact hinv.of_awake (hmoves hmode) (fun _ _ _ => Iff.rfl) rfl
  | exec hmode _ _ => exact hinv.of_awake (hmoves hmode) (fun _ _ _ => Iff.rfl) rfl
  | @relock t m hmode _ =>
      refine hinv.of_awake (fun _ _ _ _ => rfl) (fun u c m' => ?_) rfl
      show Function.update s.mode t .running u = _ ↔ _
      by_cases h : u = t
      · subst h
        rw [Function.update_self, hmode]
        simp
      · rw [Function.update_of_ne h]
  | @spurious w c m hmode =>
      exact hinv.of_wakeUp ((hinv.mem_iff c w).mpr ⟨m, hmode⟩) (fun _ _ _ _ => rfl) rfl rfl

theorem WaitInv.reachable (hs : P.system.Reachable s) : WaitInv P s := by
  apply hs.invariant
  · refine ⟨?_, ?_, fun c => List.nodup_nil⟩
    · intro t c m h
      cases h
    · intro c t
      constructor
      · intro h
        cases h
      · rintro ⟨m, h⟩
        cases h
  · exact fun s l s' hinv hstep => hinv.step hstep

/-- **Who sleeps after a step** has just gone to sleep, or slept before; and then he was not alone
to wait where a signal has come. -/
theorem WaitInv.asleep (hinv : WaitInv P s) (hstep : P.step l s = some s') {t : Thread} {c : Cond}
    {m : Mutex} (ht : s'.mode t = .sleeping c m) :
    (s.mode t = .running ∧ P.instr t (s.pc t) = .wait c m (s'.pc t) ∧ s'.shared = s.shared) ∨
      (s.mode t = .sleeping c m ∧ s'.pc t = s.pc t ∧
        ∀ u next, P.instr u (s.pc u) = .signal c next → s'.pc u ≠ s.pc u →
          ∃ v ∈ s.waiters c, v ≠ t) := by
  -- steps of a running thread that puts nobody to sleep and signals nothing
  have hquiet : ∀ {t₀ : Thread} {next : PC t₀}, s.mode t₀ = .running → s'.mode = s.mode →
      s'.pc = Function.update s.pc t₀ next → (∀ next, P.instr t₀ (s.pc t₀) ≠ .signal c next) →
      s.mode t = .sleeping c m ∧ s'.pc t = s.pc t ∧
        ∀ u next, P.instr u (s.pc u) = .signal c next → s'.pc u ≠ s.pc u →
          ∃ v ∈ s.waiters c, v ≠ t := by
    intro t₀ next hrun hmode hpc hinstr
    rw [hmode] at ht
    have hne : t ≠ t₀ := by
      rintro rfl
      rw [hrun] at ht
      cases ht
    refine ⟨ht, by rw [hpc, Function.update_of_ne hne], fun u next' hu hmoved => ?_⟩
    by_cases h : u = t₀
    · subst h
      exact absurd hu (hinstr next')
    · rw [hpc, Function.update_of_ne h] at hmoved
      exact absurd rfl hmoved
  -- steps in which a thread wakes up, somewhere else
  have hwoken : ∀ {w : Thread}, s'.mode = Function.update s.mode w (s.mode w).wake →
      t ≠ w ∧ s.mode t = .sleeping c m := by
    intro w hmode
    rw [hmode] at ht
    by_cases h : t = w
    · subst h
      rw [Function.update_self] at ht
      cases hold : s.mode t <;> rw [hold] at ht <;> cases ht
    · rw [Function.update_of_ne h] at ht
      exact ⟨h, ht⟩
  cases move_of_step hstep with
  | lock hmode hi _ => exact Or.inr (hquiet hmode rfl rfl (by simp [hi]))
  | unlock hmode hi _ => exact Or.inr (hquiet hmode rfl rfl (by simp [hi]))
  | await hmode hi _ => exact Or.inr (hquiet hmode rfl rfl (by simp [hi]))
  | exec hmode hi _ => exact Or.inr (hquiet hmode rfl rfl (by simp [hi]))
  | @wait t₀ c₀ m₀ next hmode hi _ =>
      have ht : Function.update s.mode t₀ (.sleeping c₀ m₀) t = .sleeping c m := ht
      by_cases h : t = t₀
      · subst h
        rw [Function.update_self] at ht
        cases ht
        exact Or.inl ⟨hmode, by rw [State.goto_pc_self]; exact hi, rfl⟩
      · rw [Function.update_of_ne h] at ht
        refine Or.inr ⟨ht, State.goto_pc_of_ne _ h _, fun u next' hu hmoved => ?_⟩
        by_cases hut : u = t₀
        · subst hut
          rw [hi] at hu
          cases hu
        · exact absurd (State.goto_pc_of_ne _ hut _) hmoved
  | @signal t₀ c₀ next hmode hi hnone =>
      right
      apply hquiet hmode rfl rfl
      intro next' hu
      rw [hi] at hu
      cases hu
      have : t ∈ s.waiters c := (hinv.mem_iff c t).mpr ⟨m, ht⟩
      rw [hnone] at this
      cases this
  | @wake t₀ w c₀ next hmode hi hw =>
      obtain ⟨hne, hsleeping⟩ := hwoken rfl
      have hne' : t ≠ t₀ := by
        rintro rfl
        rw [hmode] at hsleeping
        cases hsleeping
      refine Or.inr ⟨hsleeping, State.goto_pc_of_ne _ hne' _, fun u next' hu hmoved => ?_⟩
      by_cases h : u = t₀
      · subst h
        rw [hi] at hu
        cases hu
        exact ⟨w, hw, Ne.symm hne⟩
      · exact absurd (State.goto_pc_of_ne _ h _) hmoved
  | @relock t₀ m₀ hmode _ =>
      have ht : Function.update s.mode t₀ .running t = .sleeping c m := ht
      by_cases h : t = t₀
      · subst h
        rw [Function.update_self] at ht
        cases ht
      · rw [Function.update_of_ne h] at ht
        exact Or.inr ⟨ht, rfl, fun u next' _ hmoved => absurd rfl hmoved⟩
  | @spurious w c₀ m₀ hmode =>
      exact Or.inr ⟨(hwoken rfl).2, rfl, fun u next' _ hmoved => absurd rfl hmoved⟩

end Waiting

/-! ## Threads that cannot go on -/

/-- The thread is about to lock the mutex, for the first time or after it has waited. -/
def Wants (P : Program Thread Mutex Cond σ PC) (s : State Thread Mutex Cond σ PC) (t : Thread)
    (m : Mutex) : Prop :=
  (s.mode t = .running ∧ ∃ next, P.instr t (s.pc t) = .lock m next) ∨ s.mode t = .woken m

/-- The thread waits for a mutex that somebody has, sleeps, waits for something else, or has come to
its end. -/
inductive Blocked (P : Program Thread Mutex Cond σ PC) (s : State Thread Mutex Cond σ PC)
    (t : Thread) : Prop
  | mutex {m : Mutex} : Wants P s t m → s.owner m ≠ none → Blocked P s t
  | asleep {c : Cond} {m : Mutex} : s.mode t = .sleeping c m → Blocked P s t
  | await {ready : σ → Bool} {next : PC t} : s.mode t = .running →
      P.instr t (s.pc t) = .await ready next → ready s.shared = false → Blocked P s t
  | halted : s.mode t = .running → P.instr t (s.pc t) = .halt → Blocked P s t

section Blocked

variable {s s' : State Thread Mutex Cond σ PC} {t : Thread}

/-- Locks, waits for other threads and the end are the instructions that can block. -/
def Instr.Free {Mutex Cond σ PC : Type} : Instr Mutex Cond σ PC → Prop
  | .lock _ _ | .await _ _ | .halt => False
  | _ => True

omit [DecidableEq Thread] [DecidableEq Mutex] [DecidableEq Cond] in
theorem not_blocked_of_free (hmode : s.mode t = .running) (hfree : (P.instr t (s.pc t)).Free) :
    ¬ Blocked P s t := by
  intro h
  cases h with
  | mutex hwants _ =>
      rcases hwants with ⟨-, next, hi⟩ | hwoken
      · rw [hi] at hfree
        exact hfree
      · rw [hmode] at hwoken
        cases hwoken
  | asleep hsleeping => rw [hmode] at hsleeping; cases hsleeping
  | await _ hi _ => rw [hi] at hfree; exact hfree
  | halted _ hi => rw [hi] at hfree; exact hfree

/-- A blocked thread takes no step by itself. -/
theorem Blocked.no_step (h : Blocked P s t) {l : Label Thread}
    (hl : l = .run t ∨ ∃ w, l = .wake t w) : P.step l s = none := by
  cases h with
  | @mutex m hwants howned =>
      rcases hwants with ⟨hmode, next, hi⟩ | hmode
      · rcases hl with rfl | ⟨w, rfl⟩
        · simp only [Program.step, hmode, hi, if_neg howned]
        · simp only [Program.step, hmode, hi]
      · rcases hl with rfl | ⟨w, rfl⟩
        · simp only [Program.step, hmode, if_neg howned]
        · simp only [Program.step, hmode]
  | asleep hmode => rcases hl with rfl | ⟨w, rfl⟩ <;> simp only [Program.step, hmode]
  | await hmode hi hready =>
      rcases hl with rfl | ⟨w, rfl⟩
      · simp [Program.step, hmode, hi, hready]
      · simp only [Program.step, hmode, hi]
  | halted hmode hi => rcases hl with rfl | ⟨w, rfl⟩ <;> simp only [Program.step, hmode, hi]

/-- **A thread that is not blocked takes a step**, unless nothing is defined there, if it unlocks
and waits with mutexes only that it has. -/
theorem exists_step_of_not_blocked {holds : (t : Thread) → PC t → Mutex → Prop}
    (hlocks : LockInv P holds s)
    (hunlock : ∀ m next, P.instr t (s.pc t) = .unlock m next → holds t (s.pc t) m)
    (hwait : ∀ c m next, P.instr t (s.pc t) = .wait c m next → holds t (s.pc t) m)
    (h : ¬ Blocked P s t) :
    (∃ l s', (l = .run t ∨ ∃ w, l = .wake t w) ∧ P.step l s = some s') ∨
      ∃ f, s.mode t = .running ∧ P.instr t (s.pc t) = .exec f ∧ f s.shared = none := by
  have howner : ∀ m, s.mode t = .running → holds t (s.pc t) m → s.owner m = some t := by
    intro m hmode hheld
    apply (hlocks.owner_iff t m).mpr
    refine ⟨hheld, ?_⟩
    rw [hmode]
    simp [Mode.released]
  cases hmode : s.mode t with
  | sleeping c m => exact absurd (.asleep hmode) h
  | woken m =>
      by_cases hfree : s.owner m = none
      · left
        refine ⟨.run t, (s.setOwner m (some t)).resume t, Or.inl rfl, ?_⟩
        simp only [Program.step, hmode, if_pos hfree]
      · exact absurd (.mutex (Or.inr hmode) hfree) h
  | running =>
      cases hi : P.instr t (s.pc t) with
      | lock m next =>
          by_cases hfree : s.owner m = none
          · exact Or.inl ⟨.run t, _, Or.inl rfl, step_lock hmode hi hfree⟩
          · exact absurd (.mutex (Or.inl ⟨hmode, next, hi⟩) hfree) h
      | unlock m next =>
          exact Or.inl ⟨.run t, _, Or.inl rfl,
            step_unlock hmode hi (howner m hmode (hunlock m next hi))⟩
      | wait c m next =>
          left
          refine ⟨.run t, ((s.setOwner m none).sleep t c m).goto t next, Or.inl rfl, ?_⟩
          simp only [Program.step, hmode, hi, if_pos (howner m hmode (hwait c m next hi))]
      | signal c next => exact Or.inl (exists_step_signal hmode hi)
      | await ready next =>
          cases hready : ready s.shared with
          | true =>
              left
              refine ⟨.run t, s.goto t next, Or.inl rfl, ?_⟩
              simp only [Program.step, hmode, hi, hready, if_true]
          | false => exact absurd (.await hmode hi hready) h
      | exec f =>
          cases hf : f s.shared with
          | none => exact Or.inr ⟨f, rfl, rfl, hf⟩
          | some result => exact Or.inl ⟨.run t, _, Or.inl rfl, step_exec hmode hi hf⟩
      | halt => exact absurd (.halted hmode hi) h

end Blocked

end Threads
