import CodeIndexer.Lib.Dict
import CodeIndexer.Lib.Transition

/-!
# The reader-writer lock of the daemon (`daemon/cache.py`)

A step is one operation on the semaphore or on one of the two locks, with what the thread does until its next one; in
`release_read` it is the whole block under the counter lock, in which nothing waits. A thread that neither has nor wants
the lock is not in `threads`. `_writers` is never read and is left out.
-/

namespace CodeIndexer.Daemon

open List TransitionSystem

/-- Where a thread is; `reading` and `writing` are between an acquire and its release. -/
inductive Pc
  | readReady
  | readCounter
  | firstReader
  | readDone
  | reading
  | releaseRead
  | writeReady
  | writeLock
  | writing
  | releaseWrite
deriving DecidableEq

namespace Pc

/-- The thread has taken `_read_ready`. -/
def gated : Pc → Bool
  | readCounter | firstReader | readDone | writeLock | writing | releaseWrite => true
  | _ => false

/-- The thread is one of `_readers` and has left the counter lock. -/
def reads : Pc → Bool
  | readDone | reading | releaseRead => true
  | _ => false

/-- The number of steps before the thread has released the lock. -/
def left : Pc → ℕ
  | readReady => 6
  | readCounter => 5
  | firstReader | writeReady => 4
  | readDone | writeLock => 3
  | reading | writing => 2
  | releaseRead | releaseWrite => 1

/-- The thread is in `acquire_read` or `acquire_write`. -/
def Waits (pc : Pc) : Prop := 2 < pc.left

end Pc

structure Locks where
  readReady : ℕ
  readers : ℕ
  counter : Bool
  write : Bool

/-- `none` while the thread has to wait. -/
def Locks.advance (l : Locks) : Pc → Option (Option Pc × Locks)
  | .readReady => if l.readReady = 0 then none else some (some .readCounter, { l with readReady := l.readReady - 1 })
  | .readCounter =>
    if l.counter then none else some (some .firstReader, { l with counter := true, readers := l.readers + 1 })
  | .firstReader =>
    if l.readers = 1 then
      if l.write then none else some (some .readDone, { l with counter := false, write := true })
    else some (some .readDone, { l with counter := false })
  | .readDone => some (some .reading, { l with readReady := l.readReady + 1 })
  | .reading => some (some .releaseRead, l)
  | .releaseRead =>
    if l.counter then none
    else if l.readers - 1 = 0 then some (none, { l with readers := 0, write := false })
    else some (none, { l with readers := l.readers - 1 })
  | .writeReady => if l.readReady = 0 then none else some (some .writeLock, { l with readReady := l.readReady - 1 })
  | .writeLock => if l.write then none else some (some .writing, { l with write := true })
  | .writing => some (some .releaseWrite, { l with write := false })
  | .releaseWrite => some (none, { l with readReady := l.readReady + 1 })

structure State where
  threads : Dict ℕ Pc
  locks : Locks

inductive Act
  | acquire (t : ℕ) (write : Bool)
  | go (t : ℕ)

def State.step (s : State) : Act → Option State
  | .acquire t write =>
    if s.threads.get? t = none then
      some { s with threads := s.threads.set t (if write then .writeReady else .readReady) }
    else none
  | .go t => do
    let (next, locks) ← s.locks.advance (← s.threads.get? t)
    some ⟨s.threads.update t next, locks⟩

def lock : TransitionSystem State Act where
  init s := s = ⟨.empty, 1, 0, false, false⟩
  step := State.step

/-- Steps of the threads that are there already. -/
def GoesOn : State → State → Prop := Relation.ReflTransGen fun s s' => ∃ t, s.step (.go t) = some s'

def count (p : Pc → Bool) (threads : Dict ℕ Pc) : ℕ := threads.items.countP fun e => p e.2

def rank (threads : Dict ℕ Pc) : ℕ := ∑ k ∈ Finset.range 6, count (k < Pc.left ·) threads

structure Inv (s : State) : Prop where
  gated : s.locks.readReady + count Pc.gated s.threads = 1
  counter : s.locks.counter.toNat = count (· = .firstReader) s.threads
  readers : s.locks.readers = count Pc.reads s.threads + count (· = .firstReader) s.threads
  write : s.locks.write.toNat = count (· = .writing) s.threads + min 1 (count Pc.reads s.threads)

variable {s s' : State} {t : ℕ} {pc : Pc} {threads : Dict ℕ Pc} {p : Pc → Bool} {l l' : Locks} {next : Option Pc}

theorem count_update (h : threads.get? t = some pc) (next : Option Pc) (p : Pc → Bool) :
    count p (threads.update t next) + (p pc).toNat = count p threads + (next.any p).toNat := by
  have hcount := Dict.countP_items_update h next p
  cases hp : p pc <;> cases hn : next.any p <;> simp_all [count]

theorem Inv.advance (h : Inv ⟨threads, l⟩) (hpc : threads.get? t = some pc) (hl : l.advance pc = some (next, l')) :
    Inv ⟨threads.update t next, l'⟩ := by
  obtain ⟨hgated, hcounter, hreaders, hwrite⟩ := h
  have hg := count_update hpc next Pc.gated
  have hr := count_update hpc next Pc.reads
  have hf := count_update hpc next (· = .firstReader)
  have hw := count_update hpc next (· = .writing)
  have hcounter_le := Bool.toNat_le l.counter
  have hwrite_le := Bool.toNat_le l.write
  revert hl hg hr hf hw
  fun_cases Locks.advance l pc <;> rintro ⟨⟩ hg hr hf hw
  all_goals
    simp only [Pc.gated, Pc.reads, Option.any, Bool.toNat_true, Bool.toNat_false, reduceCtorEq, decide_true,
      decide_false, Bool.not_eq_true, ← Bool.toNat_eq_zero] at *
    constructor <;> simp only [Bool.toNat_true, Bool.toNat_false] <;> omega

theorem count_eq_zero (h : ∀ t pc, threads.get? t = some pc → p pc = false) : count p threads = 0 := by
  rw [count, countP_eq_zero]
  rintro ⟨t, pc⟩ hmem
  simp [h t pc (Dict.mem_items_iff.1 hmem)]

theorem count_pos (h : threads.get? t = some pc) (hp : p pc = true) : 0 < count p threads :=
  countP_pos_iff.2 ⟨(t, pc), Dict.mem_items_iff.2 h, hp⟩

theorem Inv.exists_advance (h : Inv s) (hpc : s.threads.get? t = some pc) :
    ∃ t pc next, s.threads.get? t = some pc ∧ s.locks.advance pc = some next := by
  by_contra hblocked
  push Not at hblocked
  obtain ⟨hgated, hcounter, hreaders, hwrite⟩ := h
  have hnone : ∀ p : Pc → Bool, (∀ pc, p pc → (s.locks.advance pc).isSome) → count p s.threads = 0 := by
    intro p hp
    refine count_eq_zero fun t pc hpc => ?_
    by_contra hne
    obtain ⟨next, hnext⟩ := Option.isSome_iff_exists.1 (hp pc ((Bool.not_eq_false _).mp hne))
    exact hblocked t pc next hpc hnext
  have hwriting : count (· = .writing) s.threads = 0 := hnone _ (by simp [Locks.advance])
  -- a blocked first reader would be the only one, and the lock then a writer's
  have hfirst : count (· = .firstReader) s.threads = 0 := by
    by_contra hne
    refine hne (hnone _ ?_)
    simp only [decide_eq_true_eq, forall_eq, Locks.advance]
    split_ifs with hone hlocked
    · rw [hlocked, Bool.toNat_true] at hwrite
      omega
    · rfl
    · rfl
  have hcounter : s.locks.counter = false := by
    rwa [hfirst, Bool.toNat_eq_zero] at hcounter
  have hreads : count Pc.reads s.threads = 0 := by
    refine hnone _ fun pc hpc => ?_
    cases pc <;> simp [Pc.reads, Locks.advance, hcounter] at hpc ⊢
    split_ifs <;> rfl
  have hwrite : s.locks.write = false := by
    rw [hwriting, hreads] at hwrite
    exact Bool.toNat_eq_zero.1 hwrite
  have hgate : count Pc.gated s.threads = 0 := by
    refine hnone _ fun pc hpc => ?_
    cases pc <;> simp [Pc.gated, Locks.advance, hcounter, hwrite] at hpc ⊢
    split_ifs <;> rfl
  have hready : s.locks.readReady = 1 := by omega
  have hall : count (fun _ => true) s.threads = 0 := by
    refine hnone _ fun pc _ => ?_
    cases pc <;> simp [Locks.advance, hcounter, hwrite, hready] <;> split_ifs <;> rfl
  exact (count_pos hpc rfl).ne' hall

theorem step_go (hpc : s.threads.get? t = some pc) (hl : s.locks.advance pc = some (next, l)) :
    s.step (.go t) = some ⟨s.threads.update t next, l⟩ := by
  simp [State.step, hpc, hl]

theorem rank_update_lt (hpc : threads.get? t = some pc) (hl : l.advance pc = some (next, l')) :
    rank (threads.update t next) < rank threads := by
  have hsum : ∑ k ∈ Finset.range 6, _ = ∑ k ∈ Finset.range 6, _ :=
    Finset.sum_congr rfl fun k _ => count_update hpc next (k < Pc.left ·)
  rw [Finset.sum_add_distrib, Finset.sum_add_distrib] at hsum
  change rank _ + _ = rank _ + _ at hsum
  revert hl hsum
  fun_cases Locks.advance l pc <;> rintro ⟨⟩ hsum <;> simp [Pc.left, Finset.sum_range_succ] at hsum <;> omega

theorem advance_of_waits (hw : pc.Waits) (hl : l.advance pc = some (next, l')) :
    ∃ pc', next = some pc' ∧ (pc' = .reading ∨ pc' = .writing ∨ pc'.Waits) := by
  revert hl
  fun_cases Locks.advance l pc <;> rintro ⟨⟩ <;> simp [Pc.Waits, Pc.left] at hw ⊢

theorem Inv.gets_lock {n : ℕ} (hn : rank s.threads = n) (h : Inv s) (hpc : s.threads.get? t = some pc)
    (hw : pc.Waits) :
    ∃ s', GoesOn s s' ∧ (s'.threads.get? t = some .reading ∨ s'.threads.get? t = some .writing) := by
  induction n using Nat.strong_induction_on generalizing s pc with
  | _ n ih =>
    obtain ⟨t', pc', ⟨next, locks⟩, ht', hl⟩ := h.exists_advance hpc
    have hstep : GoesOn s ⟨s.threads.update t' next, locks⟩ := .single ⟨t', step_go ht' hl⟩
    have hlt := hn ▸ rank_update_lt ht' hl
    by_cases htt : t = t'
    · subst htt
      obtain rfl : pc = pc' := Option.mem_unique hpc ht'
      obtain ⟨pc', rfl, hpc'⟩ := advance_of_waits hw hl
      have hget : (s.threads.update t (some pc')).get? t = some pc' := by simp [Dict.get?_update]
      rcases hpc' with rfl | rfl | hw'
      · exact ⟨_, hstep, .inl hget⟩
      · exact ⟨_, hstep, .inr hget⟩
      · obtain ⟨s', hs', hgot⟩ := ih _ hlt rfl (h.advance hpc hl) hget hw'
        exact ⟨s', hstep.trans hs', hgot⟩
    · have hget : (s.threads.update t' next).get? t = some pc := by simp [Dict.get?_update, htt, hpc]
      obtain ⟨s', hs', hgot⟩ := ih _ hlt rfl (h.advance ht' hl) hget hw
      exact ⟨s', hstep.trans hs', hgot⟩

theorem count_set (h : threads.get? t = none) (pc : Pc) (p : Pc → Bool) :
    count p (threads.set t pc) = count p threads + (p pc).toNat := by
  rw [count, Dict.countP_items_set_of_none h, Bool.toNat, Bool.cond_eq_ite, count]

theorem inv_of_reachable (h : lock.Reachable Any s) : Inv s := by
  refine h.invariant ?_ ?_
  · rintro _ rfl
    exact ⟨rfl, rfl, rfl, rfl⟩
  · intro s a s' hinv _ hs
    cases a with
    | acquire t write =>
      simp only [lock, State.step, Option.ite_none_right_eq_some, Option.some.injEq] at hs
      obtain ⟨hnone, rfl⟩ := hs
      obtain ⟨hgated, hcounter, hreaders, hwrite⟩ := hinv
      cases write <;> constructor <;> simpa [count_set hnone, Pc.gated, Pc.reads]
    | go t =>
      simp only [lock, State.step, Option.bind_eq_bind, Option.bind_eq_some_iff, Option.some.injEq, Prod.exists] at hs
      obtain ⟨pc, hpc, next, locks, hl, rfl⟩ := hs
      exact hinv.advance hpc hl

/-- A writer has the lock alone, some thread can always go on, and each thread that waits can get the lock from the
threads that are there, which release it when they have it. -/
theorem reader_writer_lock_correct (h : lock.Reachable Any s) :
    (∀ t t' pc, s.threads.get? t = some .writing → s.threads.get? t' = some pc → pc.reads = false) ∧
    (∀ t t', s.threads.get? t = some .writing → s.threads.get? t' = some .writing → t = t') ∧
    (∀ t pc, s.threads.get? t = some pc → ∃ t' s', s.step (.go t') = some s') ∧
    ∀ t pc, s.threads.get? t = some pc → pc.Waits →
      ∃ s', GoesOn s s' ∧ (s'.threads.get? t = some .reading ∨ s'.threads.get? t = some .writing) := by
  have hinv := inv_of_reachable h
  have hle := Bool.toNat_le s.locks.write
  rw [hinv.write] at hle
  refine ⟨fun t t' pc ht ht' => ?_, fun t t' ht ht' => ?_, fun t pc hpc => ?_, fun t pc => hinv.gets_lock rfl⟩
  · by_contra hreads
    have hwriting := count_pos (p := (· = .writing)) ht (by simp)
    have hreading := count_pos ht' ((Bool.not_eq_false _).mp hreads)
    omega
  · exact Dict.eq_of_countP_le_one (p := (· = .writing)) (by rw [count] at hle; omega) ht (by simp) ht' (by simp)
  · obtain ⟨t', pc', next, ht', hl⟩ := hinv.exists_advance hpc
    exact ⟨t', _, step_go ht' hl⟩

theorem reader_writer_lock_correct_contended :
    ∃ s, lock.Reachable Any s ∧ s.threads.get? 0 = some .reading ∧ s.threads.get? 1 = some .writeLock ∧
      ∃ s', GoesOn s s' ∧ (s'.threads.get? 1 = some .reading ∨ s'.threads.get? 1 = some .writing) := by
  exact exists_of_run_and_and ⟨.empty, 1, 0, false, false⟩
    [.acquire 0 false, .go 0, .go 0, .go 0, .go 0, .acquire 1 true, .go 1] rfl (by decide +kernel)
    fun s hs _ h1 => (reader_writer_lock_correct hs).2.2.2 1 _ h1 (by simp [Pc.Waits, Pc.left])

end CodeIndexer.Daemon
