import CodeIndexer.GlobalRepos.WriteLock

/-!
# Mutual exclusion of write locks

Three races let a second `acquire` succeed: a checker reads the file before its metadata is written
(or the read fails) and evicts it as corrupt; a call unlinks the file after it was replaced by another
one; a `release` finds its own owner name on somebody else's lock. Without them, and with every
holder alive and within its TTL, there is at most one holder and its file stays (`Inv`).
-/

namespace CodeIndexer.WriteLock

open PyText TransitionSystem Function

variable {T M : Type} {Q : Parties T M}

/-! ### The races -/

def holdersLive (Q : Parties T M) (s : State T M) : Act T → Bool
  | .judge t env => s.holders.all fun h =>
    (Q.hostname h.party ≠ Q.hostname t ∨ env.kill (Q.pid h.party) ≠ .noSuchProcess) ∧
      env.now - h.acquiredAt ≤ h.ttlSeconds
  | _ => true

/-- `_evict_if_stale` reads a file whose metadata is written, without an error. -/
def readsWritten (s : State T M) : Act T → Bool
  | .read t osError =>
    match s.pc t with
    | .reading .getLockInfo => true
    | .reading _ => !osError && s.file.all fun f => f.writer.isNone
    | _ => true
  | _ => true

/-- A file is unlinked by a call that read that file and not an earlier one. -/
def unlinksSeen (s : State T M) : Act T → Bool
  | .unlink t _ =>
    match s.pc t with
    | .unlinking _ inc | .releaseUnlinking inc => s.file.all fun f => f.inc = inc
    | _ => true
  | _ => true

/-- `release` finds its owner name only on the caller's own lock, or on one that nobody holds. -/
def releasesOwn [DecidableEq T] (s : State T M) : Act T → Bool
  | .compare t =>
    match s.pc t with
    | .releaseComparing ownerName ⟨inc, .metadata m, _⟩ =>
      !m.ownedBy ownerName || s.holders.all fun h => h.inc ≠ inc ∨ h.party = t
    | _ => true
  | _ => true

/-! ### The invariant -/

variable {s s' : State T M} {t : T}

theorem isStale_eq_false_of_live {env : Env} (hlive : holdersLive Q s (.judge t env))
    {h : Holder T} (hh : h ∈ s.holders) : (Q.metadata h).isStale (Q.hostname t) env = false := by
  obtain ⟨hpid, httl⟩ := of_decide_eq_true (List.all_eq_true.1 hlive h hh)
  have hexpired : (Q.metadata h).expired env = false := decide_eq_false (not_lt.2 httl)
  have hdead : ((Q.metadata h).isLocal (Q.hostname t) && (Q.metadata h).pidDead env) = false := by
    rcases hpid with hhost | hkill
    · have hlocal : (Q.metadata h).isLocal (Q.hostname t) = false := by
        simp [Metadata.isLocal, Parties.metadata, hhost]
      rw [hlocal, Bool.false_and]
    · have hpid : (Q.metadata h).pidDead env = false := decide_eq_false hkill
      rw [hpid, Bool.and_false]
  rw [Metadata.isStale, hdead, hexpired]
  rfl

def Settled (s : State T M) (i : ℕ) : Prop :=
  i < s.nextInc ∧ ∀ f, s.file = some f → f.inc = i → f.writer = none

def PcOk (Q : Parties T M) (s : State T M) (t : T) : Pc T → Prop
  | .judging c f => (c = .getLockInfo ∧ f.content = .unparsable) ∨
    (Settled s f.inc ∧ ∀ h ∈ s.holders, h.inc = f.inc → f.content = .metadata (Q.metadata h))
  | .unlinking _ i => Settled s i ∧ ∀ h ∈ s.holders, h.inc ≠ i
  | .writing _ _ i => ∃ f, s.file = some f ∧ f.inc = i ∧ f.writer = some t
  | .releaseComparing _ f => f.content = .unparsable ∨ Settled s f.inc
  | .releaseUnlinking i => Settled s i ∧ ∀ h ∈ s.holders, h.inc = i → h.party = t
  | _ => True

structure Inv (Q : Parties T M) (s : State T M) : Prop where
  file_lt : ∀ f, s.file = some f → f.inc < s.nextInc
  file_unwritten : ∀ f, s.file = some f → f.writer ≠ none → f.content = .unparsable
  held : ∀ h ∈ s.holders, ∃ f, s.file = some f ∧ f.inc = h.inc ∧ f.writer = none ∧
    f.content = .metadata (Q.metadata h)
  single : s.holders.length ≤ 1
  pcs : ∀ t, PcOk Q s t (s.pc t)

/-- What the step of one party leaves to the others: what was settled stays so and gets no new
holder, and a file that another party is about to write stays. -/
structure Keeps (s s' : State T M) (t : T) : Prop where
  settled : ∀ i, Settled s i → Settled s' i
  holders : ∀ i, Settled s i → ∀ h ∈ s'.holders, h.inc = i → h ∈ s.holders
  writers : ∀ u f, u ≠ t → s.file = some f → f.writer = some u → s'.file = some f

theorem PcOk.keeps {u : T} {pc : Pc T} (h : PcOk Q s u pc) (hk : Keeps s s' t) (hu : u ≠ t) : PcOk Q s' u pc := by
  cases pc with
  | judging c f =>
    rcases h with h | ⟨hset, hheld⟩
    · exact .inl h
    · exact .inr ⟨hk.settled _ hset, fun h hh hinc => hheld h (hk.holders _ hset h hh hinc) hinc⟩
  | unlinking c i =>
    obtain ⟨hset, hfree⟩ := h
    refine ⟨hk.settled _ hset, ?_⟩
    intro h hh hinc
    exact hfree h (hk.holders _ hset h hh hinc) hinc
  | writing o ttl i =>
    obtain ⟨f, hf, hinc, hw⟩ := h
    exact ⟨f, hk.writers u f hu hf hw, hinc, hw⟩
  | releaseComparing o f => exact h.imp_right (hk.settled _)
  | releaseUnlinking i =>
    obtain ⟨hset, hown⟩ := h
    exact ⟨hk.settled _ hset, fun h hh hinc => hown h (hk.holders _ hset h hh hinc) hinc⟩
  | _ => trivial

namespace Inv

variable {s : State T M}

theorem not_held_of_writer (h : Inv Q s) {f : LockFile T} {u : T} (hf : s.file = some f)
    (hw : f.writer = some u) : s.holders = [] := by
  refine List.eq_nil_iff_forall_not_mem.2 fun h' hh => ?_
  obtain ⟨g, hg, -, hnone, -⟩ := h.held h' hh
  obtain rfl := Option.mem_unique hf hg
  rw [hnone] at hw
  cases hw

theorem not_held_of_no_file (h : Inv Q s) (hf : s.file = none) : s.holders = [] := by
  refine List.eq_nil_iff_forall_not_mem.2 fun h' hh => ?_
  obtain ⟨g, hg, -⟩ := h.held h' hh
  rw [hf] at hg
  cases hg

theorem holder_inc (h : Inv Q s) {i : ℕ} (hseen : ∀ f, s.file = some f → f.inc = i) {h' : Holder T}
    (hh : h' ∈ s.holders) : h'.inc = i := by
  obtain ⟨f, hf, hinc, -⟩ := h.held h' hh
  rw [← hinc]
  exact hseen f hf

end Inv

theorem IsInit.inv (h : IsInit s) : Inv Q s := by
  refine ⟨fun f hf => (h.leftover f hf).1, ?_, ?_, ?_, ?_⟩
  · intro f hf hw
    exact absurd (h.leftover f hf).2 hw
  · rw [h.unheld]
    exact nofun
  · rw [h.unheld]
    exact Nat.zero_le 1
  · intro t
    rw [h.idle t]
    trivial

variable [DecidableEq T]

theorem keeps_pcs {pc : Pc T} (h : Inv Q s) (hk : Keeps s s' t)
    (hpc : s'.pc = update s.pc t pc) (hok : PcOk Q s' t pc) : ∀ u, PcOk Q s' u (s'.pc u) := by
  intro u
  rw [hpc]
  by_cases hu : u = t
  · subst hu
    rw [update_self]
    exact hok
  · rw [update_of_ne hu]
    exact (h.pcs u).keeps hk hu

namespace Inv

variable {s : State T M} {t : T}

/-! ### One lemma for each kind of step -/

variable {pc : Pc T} {s' : State T M}

theorem move (h : Inv Q s) (hfile : s'.file = s.file)
    (hnext : s'.nextInc = s.nextInc) (hholders : s'.holders = s.holders)
    (hpc : s'.pc = update s.pc t pc) (hok : PcOk Q s' t pc) : Inv Q s' := by
  have hset : ∀ i, Settled s i → Settled s' i := by
    intro i hi
    rw [Settled, hfile, hnext]
    exact hi
  have hk : Keeps s s' t := ⟨hset, fun i _ h hh _ => hholders ▸ hh, fun u f _ hf _ => hfile ▸ hf⟩
  refine ⟨?_, ?_, ?_, ?_, keeps_pcs h hk hpc hok⟩
  · rw [hfile, hnext]
    exact h.file_lt
  · rw [hfile]
    exact h.file_unwritten
  · rw [hfile, hholders]
    exact h.held
  · rw [hholders]
    exact h.single

theorem goto (h : Inv Q s) (hok : PcOk Q s t pc) : Inv Q (s.goto t pc) :=
  h.move rfl rfl rfl rfl (by cases pc <;> exact hok)

theorem endAcquire [DecidableEq M] (h : Inv Q s) : Inv Q (s.endAcquire Q t) := by
  exact h.move rfl rfl rfl rfl (show PcOk Q _ t .idle from trivial)

theorem afterEviction (h : Inv Q s) (c : Caller) : Inv Q (s.afterEviction t c) := by
  cases c <;> exact h.goto trivial

theorem endCall [DecidableEq M] (h : Inv Q s) (c : Caller) : Inv Q (s.endCall Q t c) := by
  cases c with
  | acquire o ttl => exact h.endAcquire
  | isLocked | getLockInfo => exact h.goto trivial

theorem released (h : Inv Q s) : Inv Q (s.released t) := by
  have hk : Keeps s (s.released t) t :=
    ⟨fun i hi => hi, fun i _ h hh _ => List.mem_of_mem_filter hh, fun u f _ hf _ => hf⟩
  refine ⟨h.file_lt, h.file_unwritten, ?_, ?_, keeps_pcs h hk rfl trivial⟩
  · intro h' hh
    exact h.held h' (List.mem_of_mem_filter hh)
  · exact (List.length_filter_le _ _).trans h.single

theorem remove (h : Inv Q s) {i : ℕ} (hset : Settled s i)
    (hseen : ∀ f, s.file = some f → f.inc = i) (hfile : s'.file = none) (hnext : s'.nextInc = s.nextInc)
    (hholders : s'.holders = []) (hpc : s'.pc = update s.pc t pc) (hok : PcOk Q s' t pc) :
    Inv Q s' := by
  have hk : Keeps s s' t := by
    refine ⟨?_, ?_, ?_⟩
    · intro j hj
      refine ⟨hnext ▸ hj.1, fun f hf => ?_⟩
      rw [hfile] at hf
      cases hf
    · intro j _ h' hh
      rw [hholders] at hh
      cases hh
    · intro u f _ hf hw
      rw [hset.2 f hf (hseen f hf)] at hw
      cases hw
  refine ⟨?_, ?_, ?_, ?_, keeps_pcs h hk hpc hok⟩
  · intro f hf
    rw [hfile] at hf
    cases hf
  · intro f hf
    rw [hfile] at hf
    cases hf
  · rw [hholders]
    exact nofun
  · rw [hholders]
    exact Nat.zero_le 1

theorem create (h : Inv Q s) (o : Str) (ttl : ℤ) (hf : s.file = none) :
    Inv Q ({ s with
      file := some ⟨s.nextInc, .unparsable, some t⟩
      nextInc := s.nextInc + 1 }.goto t (.writing o ttl s.nextInc)) := by
  have hnil := h.not_held_of_no_file hf
  refine ⟨?_, ?_, ?_, ?_, keeps_pcs (t := t) h ⟨?_, ?_, ?_⟩ rfl ⟨_, rfl, rfl, rfl⟩⟩
  · rintro f hf'
    cases hf'
    exact Nat.lt_succ_self _
  · rintro f hf' -
    cases hf'
    rfl
  · intro h' hh
    rw [show State.holders _ = s.holders from rfl, hnil] at hh
    cases hh
  · exact h.single
  · intro i hi
    refine ⟨Nat.lt_succ_of_lt hi.1, ?_⟩
    intro f hf' hinc
    cases hf'
    exact absurd hinc.symm (Nat.ne_of_lt hi.1)
  · intro i _ h' hh _
    exact hh
  · intro u f _ hf'
    rw [hf] at hf'
    cases hf'

theorem write (h : Inv Q s) {f g : LockFile T} (hf : s.file = some f)
    (hw : f.writer = some t) (hg : g.inc = f.inc) (hgw : g.writer = none) (hfile : s'.file = some g)
    (hnext : s'.nextInc = s.nextInc) (hpc : s'.pc = update s.pc t .idle)
    (hholders : s'.holders = [] ∨
      ∃ h', s'.holders = [h'] ∧ h'.inc = f.inc ∧ g.content = .metadata (Q.metadata h')) : Inv Q s' := by
  have hmem : ∀ h' ∈ s'.holders, h'.inc = f.inc ∧ g.content = .metadata (Q.metadata h') := by
    intro h' hh
    rcases hholders with hnil | ⟨h'', hone, hinc⟩
    · rw [hnil] at hh
      cases hh
    · rw [hone] at hh
      obtain rfl := List.mem_singleton.1 hh
      exact hinc
  -- nothing that was settled is the file being written
  have hne : ∀ i, Settled s i → f.inc ≠ i := by
    intro i hi hinc
    rw [hi.2 f hf hinc] at hw
    cases hw
  have hk : Keeps s s' t := by
    refine ⟨?_, ?_, ?_⟩
    · intro i hi
      refine ⟨hnext ▸ hi.1, fun f' hf' _ => ?_⟩
      obtain rfl := Option.mem_unique hfile hf'
      exact hgw
    · intro i hi h' hh hinc
      exact absurd ((hmem h' hh).1.symm.trans hinc) (hne i hi)
    · intro u f' hu hf' hu'
      obtain rfl := Option.mem_unique hf hf'
      exact absurd (Option.mem_unique hu' hw) hu
  refine ⟨?_, ?_, ?_, ?_, keeps_pcs h hk hpc trivial⟩
  · intro f' hf'
    obtain rfl := Option.mem_unique hfile hf'
    rw [hg, hnext]
    exact h.file_lt f hf
  · intro f' hf' hne'
    obtain rfl := Option.mem_unique hfile hf'
    exact absurd hgw hne'
  · intro h' hh
    exact ⟨g, hfile, hg.trans (hmem h' hh).1.symm, hgw, (hmem h' hh).2⟩
  · rcases hholders with hnil | ⟨h', hone, -⟩
    · rw [hnil]
      exact Nat.zero_le 1
    · rw [hone]
      exact le_rfl

end Inv

/-! ### Runs -/

variable [DecidableEq M]

namespace Inv

variable {s s' : State T M} {t : T}

theorem judge (h : Inv Q s) {env : Env} {c : Caller} {seen : LockFile T} (hpc : s.pc t = .judging c seen)
    (hlive : holdersLive Q s (.judge t env)) : Inv Q (judge Q s t env c seen) := by
  have hok := h.pcs t
  rw [hpc] at hok
  unfold WriteLock.judge
  rcases hok with ⟨rfl, hcontent⟩ | ⟨hset, hheld⟩
  · rw [hcontent]
    exact h.goto trivial
  · have hfree : (∀ h' ∈ s.holders, seen.content ≠ .metadata (Q.metadata h')) →
        PcOk Q s t (.unlinking c seen.inc) := fun hne =>
      ⟨hset, fun h' hh hinc => hne h' hh (hheld h' hh hinc)⟩
    split
    · exact h.goto trivial
    · rename_i hcontent _
      exact h.goto (hfree fun h' _ heq => by rw [hcontent] at heq; cases heq)
    · exact h.endCall _
    · rename_i m hcontent
      split
      · rename_i hstale
        refine h.goto (hfree fun h' hh heq => ?_)
        rw [hcontent] at heq
        obtain rfl := Content.metadata.inj heq
        rw [isStale_eq_false_of_live hlive hh] at hstale
        cases hstale
      · exact h.endCall _

variable {osError : Bool}

theorem read (h : Inv Q s) (hread : readsWritten s (.read t osError))
    (hs : step Q s (.read t osError) = some s') : Inv Q s' := by
  simp only [step] at hs
  split at hs
  · cases hs
    exact h.afterEviction _
  · rename_i c f hpc hf
    have hset : f.writer = none → Settled s f.inc := by
      intro hnone
      refine ⟨h.file_lt f hf, fun g hg _ => ?_⟩
      obtain rfl := Option.mem_unique hf hg
      exact hnone
    have hheld : ∀ h' ∈ s.holders, h'.inc = f.inc → f.content = .metadata (Q.metadata h') := by
      intro h' hh _
      obtain ⟨g, hg, -, -, hcontent⟩ := h.held h' hh
      obtain rfl := Option.mem_unique hf hg
      exact hcontent
    rcases c with ⟨o, ttl⟩ | _ | _
    · simp only [readsWritten, hpc, hf, Bool.and_eq_true, Bool.not_eq_true', Option.all_some,
        Option.isNone_iff_eq_none] at hread
      rw [hread.1] at hs
      cases hs
      exact h.goto (.inr ⟨hset hread.2, hheld⟩)
    · simp only [readsWritten, hpc, hf, Bool.and_eq_true, Bool.not_eq_true', Option.all_some,
        Option.isNone_iff_eq_none] at hread
      rw [hread.1] at hs
      cases hs
      exact h.goto (.inr ⟨hset hread.2, hheld⟩)
    · split at hs <;> cases hs
      · exact h.goto trivial
      · refine h.goto ?_
        by_cases hw : f.writer = none
        · exact .inr ⟨hset hw, hheld⟩
        · exact .inl ⟨rfl, h.file_unwritten f hf hw⟩
  · cases hs
    exact h.released
  · rename_i o f hpc hf
    split at hs <;> cases hs
    · exact h.released
    · refine h.goto ?_
      by_cases hw : f.writer = none
      · refine .inr ⟨h.file_lt f hf, fun g hg _ => ?_⟩
        obtain rfl := Option.mem_unique hf hg
        exact hw
      · exact .inl (h.file_unwritten f hf hw)
  · cases hs

theorem compare (h : Inv Q s) (hown : releasesOwn s (.compare t)) (hs : step Q s (.compare t) = some s') :
    Inv Q s' := by
  have hok := h.pcs t
  simp only [step] at hs
  split at hs
  · rename_i o seen hpc
    rw [hpc] at hok
    split at hs
    · cases hs
      exact h.released
    · cases hs
      exact h.goto trivial
    · rename_i m hcontent
      obtain ⟨inc, content, writer⟩ := seen
      obtain rfl : content = .metadata m := hcontent
      split at hs <;> cases hs
      · rename_i howned
        have hset : Settled s inc := Or.resolve_left hok nofun
        refine h.goto ⟨hset, fun h' hh hinc => ?_⟩
        simp only [releasesOwn, hpc, howned, Bool.not_true, Bool.false_or] at hown
        exact (of_decide_eq_true (List.all_eq_true.1 hown h' hh)).resolve_left (not_not.2 hinc)
      · exact h.goto trivial
  · cases hs

theorem unlink (h : Inv Q s) (hseen : unlinksSeen s (.unlink t osError))
    (hs : step Q s (.unlink t osError) = some s') : Inv Q s' := by
  have hok := h.pcs t
  simp only [step] at hs
  split at hs
  · rename_i c i hpc
    rw [hpc] at hok
    obtain ⟨hset, hfree⟩ := hok
    cases hs
    split
    · exact h.afterEviction c
    · simp only [unlinksSeen, hpc] at hseen
      have hseen' : ∀ f, s.file = some f → f.inc = i := by
        intro f hf
        rw [hf] at hseen
        exact of_decide_eq_true hseen
      have hnil : s.holders = [] :=
        List.eq_nil_iff_forall_not_mem.2 fun h' hh => hfree h' hh (h.holder_inc hseen' hh)
      cases c <;> exact h.remove hset hseen' rfl rfl hnil rfl trivial
  · rename_i i hpc
    rw [hpc] at hok
    obtain ⟨hset, hown⟩ := hok
    split at hs <;> cases hs
    · exact h.goto trivial
    · simp only [unlinksSeen, hpc] at hseen
      have hseen' : ∀ f, s.file = some f → f.inc = i := by
        intro f hf
        rw [hf] at hseen
        exact of_decide_eq_true hseen
      have hnil : s.holders.filter (fun h' => h'.party ≠ t) = [] := by
        refine List.filter_eq_nil_iff.2 fun h' hh => ?_
        have hparty := hown h' hh (h.holder_inc hseen' hh)
        simp [hparty]
      exact h.remove hset hseen' rfl rfl hnil rfl trivial
  · cases hs

theorem step (h : Inv Q s) {a : Act T} (hlive : holdersLive Q s a) (hread : readsWritten s a)
    (hseen : unlinksSeen s a) (hown : releasesOwn s a) (hs : step Q s a = some s') : Inv Q s' := by
  cases a with
  | acquire t o ttl =>
    simp only [WriteLock.step] at hs
    split at hs
    · split at hs <;> cases hs
      · exact h
      · exact h.move rfl rfl rfl rfl (show PcOk Q _ t (.checking _) from trivial)
    · cases hs
  | isLocked t | getLockInfo t | release t o =>
    simp only [WriteLock.step] at hs
    split at hs <;> cases hs
    exact h.goto trivial
  | «exists» t =>
    simp only [WriteLock.step] at hs
    split at hs <;> cases hs
    · exact h.goto trivial
    · exact h.afterEviction _
    · exact h.goto trivial
    · exact h.released
  | read t osError => exact h.read hread hs
  | judge t env =>
    simp only [WriteLock.step] at hs
    split at hs
    · rename_i hpc
      cases hs
      exact h.judge hpc hlive
    · cases hs
  | compare t => exact h.compare hown hs
  | unlink t osError => exact h.unlink hseen hs
  | create t osError =>
    simp only [WriteLock.step] at hs
    split at hs
    · split at hs
      · cases hs
        exact h.endAcquire
      · rename_i hfile
        cases hs
        rw [Bool.or_eq_true, not_or, Option.not_isSome_iff_eq_none] at hfile
        exact h.create _ _ hfile.2
    · cases hs
  | write t now osError =>
    have hok := h.pcs t
    simp only [WriteLock.step] at hs
    split at hs
    · rename_i o ttl i hpc
      rw [hpc] at hok
      obtain ⟨f, hf, hinc, hw⟩ := hok
      have hnil := h.not_held_of_writer hf hw
      split at hs <;> cases hs
      · have hfile : (abandonWrite s i).file = some { f with writer := none } := by
          simp [abandonWrite, hf, hinc]
        exact h.write (g := { f with writer := none }) hf hw rfl rfl hfile rfl rfl (.inl hnil)
      · let h' : Holder T := ⟨t, i, o, now, ttl⟩
        let g : LockFile T := { f with content := .metadata (Q.metadata h'), writer := none }
        have hfile : (writeMetadata Q s h').file = some g := by
          simp [writeMetadata, hf, hinc, h', g]
        have hone : (writeMetadata Q s h').holders = [h'] := by
          rw [← hnil]
          rfl
        exact h.write (g := g) hf hw rfl rfl hfile rfl rfl (.inr ⟨h', hone, hinc.symm, rfl⟩)
    · cases hs

end Inv

def Orderly (Q : Parties T M) (s : State T M) (a : Act T) : Prop :=
  holdersLive Q s a ∧ readsWritten s a ∧ unlinksSeen s a ∧ releasesOwn s a

instance (s : State T M) (a : Act T) : Decidable (Orderly Q s a) :=
  inferInstanceAs (Decidable (_ ∧ _ ∧ _ ∧ _))

/-- In every run without the three races at most one `acquire` that returned `True` is not released,
and its lock file is there. -/
theorem holders_le_one {s : State T M} (h : (locking Q).Reachable (Orderly Q) s) :
    s.holders.length ≤ 1 ∧ ∀ h ∈ s.holders, ∃ f, s.file = some f ∧ f.inc = h.inc := by
  have hinv : Inv Q s := by
    refine h.invariant (fun s (hs : IsInit s) => hs.inv) ?_
    rintro s a s' hs ⟨hlive, hread, hseen, hown⟩ hstep
    exact hs.step hlive hread hseen hown hstep
  refine ⟨hinv.single, fun h' hh => ?_⟩
  obtain ⟨f, hf, hinc, -⟩ := hinv.held h' hh
  exact ⟨f, hf, hinc⟩

/-! ### Two processes on one host -/

def twoProcesses : Parties Bool Bool where
  manager := id
  pid t := if t then 2 else 1
  hostname _ := "node"

def fresh (file : Option (LockFile Bool)) : State Bool Bool := ⟨file, 1, fun _ => false, fun _ => .idle, []⟩

theorem fresh_isInit {file : Option (LockFile Bool)} (h : ∀ f ∈ file, f.inc < 1 ∧ f.writer = none) :
    IsInit (fresh file) := ⟨h, fun _ => rfl, fun _ => rfl, rfl⟩

def observed : Env := ⟨fun pid => if pid = 9 then .noSuchProcess else .success, 0⟩

def leftBehind : LockFile Bool where
  inc := 0
  content := .metadata
    ⟨.value "job", .value 9, .value "node", .value 0, .value 3600⟩
  writer := none

def acquireFresh (t : Bool) : List (Act Bool) :=
  [.acquire t "job" 3600, .exists t, .create t false, .write t 0 false]

def acquireEvicting (t : Bool) : List (Act Bool) :=
  [.acquire t "job" 3600, .exists t, .read t false, .judge t observed, .unlink t false,
    .create t false, .write t 0 false]

def releaseBy (t : Bool) : List (Act Bool) :=
  [.release t "job", .exists t, .read t false, .compare t, .unlink t false]

/-- The lock of a dead process is taken over, the other process looks at it and tries to release it with its own owner
name, and takes it once it is released. -/
theorem holders_le_one_handover :
    ∃ s, (locking twoProcesses).Reachable (Orderly twoProcesses) s ∧ s.holders.map (·.party) = [true] ∧
      s.holders.length ≤ 1 := by
  exact exists_of_run_and (fresh (some leftBehind))
    (acquireEvicting false ++ [.isLocked true, .exists true, .read true false, .judge true observed,
      .release true "other", .exists true, .read true false, .compare true] ++ releaseBy false ++ acquireFresh true)
      (fresh_isInit (by decide +kernel)) (by decide +kernel)
    fun s hreach _ => (holders_le_one hreach).1

/-- Each of the three races alone, with every holder alive, lets two `acquire` calls return `True`: a
checker reads the file before its metadata is written, a checker unlinks the successor of the stale
file it read, a process releases with another one's owner name. -/
theorem two_holders_of_race :
    (∃ s, (locking twoProcesses).Reachable
      (fun s a => holdersLive twoProcesses s a ∧ unlinksSeen s a ∧ releasesOwn s a) s ∧
        s.holders.length = 2) ∧
    (∃ s, (locking twoProcesses).Reachable
      (fun s a => holdersLive twoProcesses s a ∧ readsWritten s a ∧ releasesOwn s a) s ∧
        s.holders.length = 2) ∧
    (∃ s, (locking twoProcesses).Reachable
      (fun s a => holdersLive twoProcesses s a ∧ readsWritten s a ∧ unlinksSeen s a) s ∧
        s.holders.length = 2) := by
  refine ⟨?_, ?_, ?_⟩
  · exact exists_of_run_mem (fresh none)
      ([.acquire false "job" 3600, .exists false, .create false false, .isLocked true, .exists true,
        .read true false, .judge true observed, .unlink true false, .write false 0 false] ++
        acquireFresh true) (fresh_isInit nofun) (by decide +kernel)
  · exact exists_of_run_mem (fresh (some leftBehind))
      ([.isLocked true, .exists true, .read true false, .judge true observed] ++ acquireEvicting false ++
        [.unlink true false] ++ acquireFresh true) (fresh_isInit (by decide +kernel)) (by decide +kernel)
  · exact exists_of_run_mem (fresh none) (acquireFresh false ++ releaseBy true ++ acquireFresh true)
      (fresh_isInit nofun)
      (by decide +kernel)

end CodeIndexer.WriteLock
