import CodeIndexer.Lib.PyText

/-!
# The memory governor's bands (`MemoryGovernor._tick`, `_advance_band`)

The sampler ticks; every tick reads the thresholds, the memory of the container or the host and the
clock, and moves the band between GREEN, YELLOW and RED. Percentages and times are rational numbers:
the code compares them, and subtracts the hysteresis.
-/

namespace CodeIndexer.Memory

open PyText List

inductive Band
  | green
  | yellow
  | red
deriving DecidableEq

/-- What a reader gives: a value, one of the exceptions that `_compute_sample` catches, or another
exception. -/
inductive Reading (α : Type)
  | value (a : α)
  | unavailable
  | raises
deriving DecidableEq

/-- The readers at one tick. `cgroupV2Max` is `none` for the text `max`. -/
structure Readers where
  hostTotal : ℤ
  hostUsed : ℤ
  hostRaises : Bool
  cgroupV2Max : Reading (Option ℤ)
  cgroupV2Current : Reading ℤ
  cgroupV1Limit : Reading ℤ
  cgroupV1Usage : Reading ℤ
  pswpin : Reading ℤ
deriving DecidableEq

structure Watermarks where
  yellowPct : ℚ
  redPct : ℚ
  hysteresisPct : ℚ
  swapForcesRed : Bool
  swapPswpinRedThreshold : ℤ
  redMinDwell : ℚ
deriving DecidableEq

/-- One tick. `config` is `none` when a configuration service is set and cannot be read. -/
structure Tick where
  config : Option Watermarks
  readers : Readers
  now : ℚ
deriving DecidableEq

structure MemorySample where
  basis : Str
  usedPct : ℚ
  effectiveLimit : ℤ
  effectiveUsed : ℤ
  pswpinRate : ℤ
deriving DecidableEq

structure Counters where
  greenToYellow : ℕ
  yellowToRed : ℕ
  redToYellow : ℕ
  yellowToGreen : ℕ
deriving DecidableEq

structure Governor where
  band : Band
  redEntryTime : Option ℚ
  counters : Counters
  prevPswpin : Option ℤ
  firstTick : Bool
  lastUsedPct : ℚ
deriving DecidableEq

def cgroupV1UnlimitedThreshold : ℤ := 2 ^ 62

namespace Readers

def cgroupV2 (r : Readers) : Option (Option (ℤ × ℤ)) :=
  match r.cgroupV2Max with
  | .raises => none
  | .unavailable => some none
  | .value none => some none
  | .value (some limit) =>
    match r.cgroupV2Current with
    | .raises => none
    | .unavailable => some none
    | .value used => some (some (limit, used))

def cgroupV1 (r : Readers) : Option (Option (ℤ × ℤ)) :=
  match r.cgroupV1Limit with
  | .raises => none
  | .unavailable => some none
  | .value limit =>
    if limit < cgroupV1UnlimitedThreshold then
      match r.cgroupV1Usage with
      | .raises => none
      | .unavailable => some none
      | .value used => some (some (limit, used))
    else some none

/-- The basis, the effective limit and the effective use: cgroup v2, else cgroup v1, else the host. -/
def effective (r : Readers) : Option (Str × ℤ × ℤ) :=
  if r.hostRaises then none
  else
    match r.cgroupV2 with
    | none => none
    | some (some (limit, used)) => some ("cgroup_v2", min r.hostTotal limit, used)
    | some none =>
      match r.cgroupV1 with
      | none => none
      | some (some (limit, used)) => some ("cgroup_v1", min r.hostTotal limit, used)
      | some none => some ("host", r.hostTotal, r.hostUsed)

end Readers

namespace Watermarks

def swapForces (w : Watermarks) (sample : MemorySample) : Bool :=
  w.swapForcesRed && decide (w.swapPswpinRedThreshold ≤ sample.pswpinRate) && decide (w.yellowPct ≤ sample.usedPct)

def pressed (w : Watermarks) (sample : MemorySample) : Bool :=
  decide (w.redPct ≤ sample.usedPct) || w.swapForces sample

end Watermarks

namespace Governor

def init (now : ℚ) : Governor := ⟨.red, some now, ⟨0, 0, 0, 0⟩, none, true, 0⟩

def computeSample (g : Governor) (r : Readers) : Option (MemorySample × ℤ) :=
  match r.effective, r.pswpin with
  | some (basis, limit, used), .value pswpin =>
    some (⟨basis, if 0 < limit then 100 * used / limit else 0, limit, used,
      match g.prevPswpin with
      | none => 0
      | some prev => max 0 (pswpin - prev)⟩, pswpin)
  | _, _ => none

def count (g : Governor) (f : Counters → Counters) : Governor :=
  if g.firstTick then g else { g with counters := f g.counters }

def dwellOk (g : Governor) (w : Watermarks) (now : ℚ) : Bool :=
  decide (w.redMinDwell ≤ 0) || g.redEntryTime.any fun entry => decide (w.redMinDwell ≤ now - entry)

def enterYellow (g : Governor) (f : Counters → Counters) : Governor := { g.count f with band := .yellow }

def enterRed (g : Governor) (now : ℚ) : Governor :=
  { g.count fun c => { c with yellowToRed := c.yellowToRed + 1 } with band := .red, redEntryTime := some now }

def enterGreen (g : Governor) : Governor :=
  { g.count fun c => { c with yellowToGreen := c.yellowToGreen + 1 } with band := .green }

/-- RED may be left: below the red line by the hysteresis, no swap forcing, and long enough in RED. -/
def mayLeaveRed (g : Governor) (w : Watermarks) (sample : MemorySample) (now : ℚ) : Bool :=
  decide (sample.usedPct < w.redPct - w.hysteresisPct) && !w.swapForces sample && g.dwellOk w now

/-- `_advance_band`. GREEN and RED are left for YELLOW, from which the same tick may go on. -/
def advanceBand (g : Governor) (w : Watermarks) (sample : MemorySample) (now : ℚ) : Governor :=
  match g.band with
  | .red =>
    if g.mayLeaveRed w sample now then
      let g := g.enterYellow fun c => { c with redToYellow := c.redToYellow + 1 }
      if sample.usedPct < w.yellowPct - w.hysteresisPct then g.enterGreen else g
    else g
  | .yellow =>
    if w.pressed sample then g.enterRed now
    else if sample.usedPct < w.yellowPct - w.hysteresisPct then g.enterGreen
    else g
  | .green =>
    if w.pressed sample then (g.enterYellow fun c => { c with greenToYellow := c.greenToYellow + 1 }).enterRed now
    else if w.yellowPct ≤ sample.usedPct then g.enterYellow fun c => { c with greenToYellow := c.greenToYellow + 1 }
    else g

def applyFailSafeRed (g : Governor) (now : ℚ) : Governor := { g with band := .red, redEntryTime := some now }

/-- The thresholds and the sample of a tick, unless one of them cannot be read. -/
def sampled (g : Governor) (t : Tick) : Option (Watermarks × MemorySample × ℤ) :=
  t.config.bind fun w => (g.computeSample t.readers).map fun p => (w, p)

def record (g : Governor) (sample : MemorySample) (pswpin : ℤ) : Governor :=
  { g with prevPswpin := some pswpin, lastUsedPct := sample.usedPct }

def tick (g : Governor) (t : Tick) : Governor :=
  match g.sampled t with
  | none => g.applyFailSafeRed t.now
  | some (w, sample, pswpin) =>
    { (g.record sample pswpin).advanceBand w sample t.now with firstTick := false }

def admissionAllowed (g : Governor) (maxUsedPct : ℚ) : Bool :=
  if g.firstTick then false
  else if g.band = .red then false
  else decide (g.lastUsedPct < maxUsedPct)

def after (created : ℚ) (ticks : List Tick) : Governor := ticks.foldl tick (init created)

/-! ### One tick -/

variable {g : Governor} {w : Watermarks} {sample : MemorySample} {t : Tick} {now : ℚ}

/-- The tick forces RED: something cannot be read, or the memory is used up to the red line, or swap-in forces RED. -/
def forcesRed (g : Governor) (t : Tick) : Bool := (g.sampled t).all fun p => p.1.pressed p.2.1

def EntersRed (g : Governor) (t : Tick) : Prop := (g.tick t).band = .red ∧ (g.band ≠ .red ∨ g.sampled t = none)

variable (f : Counters → Counters)

@[simp] theorem enterRed_band : (g.enterRed now).band = .red := rfl
@[simp] theorem enterGreen_band : g.enterGreen.band = .green := rfl
@[simp] theorem enterYellow_band : (g.enterYellow f).band = .yellow := rfl
@[simp] theorem enterRed_redEntryTime : (g.enterRed now).redEntryTime = some now := rfl

@[simp] theorem enterYellow_redEntryTime : (g.enterYellow f).redEntryTime = g.redEntryTime := by
  unfold enterYellow count; split <;> rfl

@[simp] theorem enterGreen_redEntryTime : g.enterGreen.redEntryTime = g.redEntryTime := by
  unfold enterGreen count; split <;> rfl

theorem mayLeaveRed_iff : g.mayLeaveRed w sample now = true ↔
    sample.usedPct < w.redPct - w.hysteresisPct ∧ w.swapForces sample = false ∧ g.dwellOk w now = true := by
  simp [mayLeaveRed, and_assoc]

theorem advanceBand_of_pressed (hysteresis : 0 ≤ w.hysteresisPct) (h : w.pressed sample = true) :
    (g.advanceBand w sample now).band = .red := by
  cases hband : g.band with
  | red =>
    -- both ways of being pressed keep RED from being left
    have hstay : g.mayLeaveRed w sample now = false := by
      rw [← Bool.not_eq_true, mayLeaveRed_iff]
      rintro ⟨hlt, hswap, -⟩
      rcases (Bool.or_eq_true ..).mp h with h | h
      · have := of_decide_eq_true h; linarith
      · simp [h] at hswap
    simp [advanceBand, hband, hstay]
  | yellow | green => simp [advanceBand, hband, h]

theorem advanceBand_ne_green (hysteresis : 0 ≤ w.hysteresisPct) (h : w.yellowPct ≤ sample.usedPct) :
    (g.advanceBand w sample now).band ≠ .green := by
  have hexit : ¬sample.usedPct < w.yellowPct - w.hysteresisPct := by linarith
  cases hband : g.band with
  | red => cases hleave : g.mayLeaveRed w sample now <;> simp [advanceBand, hband, hleave, hexit]
  | yellow => cases hpressed : w.pressed sample <;> simp [advanceBand, hband, hpressed, hexit]
  | green => cases hpressed : w.pressed sample <;> simp [advanceBand, hband, hpressed, h]

theorem advanceBand_leaves (hred : g.band = .red) (h : (g.advanceBand w sample now).band ≠ .red) :
    g.mayLeaveRed w sample now = true := by
  by_contra hstay
  exact h (by simp [advanceBand, hred, hstay])

theorem advanceBand_redEntryTime :
    (g.advanceBand w sample now).redEntryTime =
      if (g.advanceBand w sample now).band = .red ∧ g.band ≠ .red then some now else g.redEntryTime := by
  cases hband : g.band with
  | red =>
    cases hleave : g.mayLeaveRed w sample now with
    | false => simp [advanceBand, hband, hleave]
    | true => by_cases hexit : sample.usedPct < w.yellowPct - w.hysteresisPct <;>
        simp [advanceBand, hband, hleave, hexit]
  | yellow =>
    cases hpressed : w.pressed sample with
    | true => simp [advanceBand, hband, hpressed]
    | false =>
      by_cases hexit : sample.usedPct < w.yellowPct - w.hysteresisPct <;> simp [advanceBand, hband, hpressed, hexit]
  | green =>
    cases hpressed : w.pressed sample with
    | true => simp [advanceBand, hband, hpressed]
    | false => by_cases hyellow : w.yellowPct ≤ sample.usedPct <;> simp [advanceBand, hband, hpressed, hyellow]

theorem tick_of_sampled {pswpin : ℤ} (h : g.sampled t = some (w, sample, pswpin)) :
    g.tick t = { (g.record sample pswpin).advanceBand w sample t.now with firstTick := false } := by
  rw [tick, h]

theorem tick_of_failed (h : g.sampled t = none) : g.tick t = g.applyFailSafeRed t.now := by rw [tick, h]

theorem config_of_sampled {pswpin : ℤ} (h : g.sampled t = some (w, sample, pswpin)) : t.config = some w := by
  obtain ⟨w', hconfig, hsample⟩ := Option.bind_eq_some_iff.1 h
  obtain ⟨p, -, heq⟩ := Option.map_eq_some_iff.1 hsample
  rw [hconfig, (Prod.mk.inj heq).1]

theorem tick_firstTick : (g.tick t).firstTick = (g.firstTick && (g.sampled t).isNone) := by
  cases h : g.sampled t with
  | none => rw [tick_of_failed h]; simp [applyFailSafeRed]
  | some p => obtain ⟨w, sample, pswpin⟩ := p; rw [tick_of_sampled h]; simp

theorem tick_redEntryTime [Decidable (g.EntersRed t)] :
    (g.tick t).redEntryTime = if g.EntersRed t then some t.now else g.redEntryTime := by
  cases h : g.sampled t with
  | none =>
    have henters : g.EntersRed t := ⟨by rw [tick_of_failed h]; rfl, .inr h⟩
    rw [if_pos henters, tick_of_failed h]; rfl
  | some p =>
    have hiff : g.EntersRed t ↔ (g.tick t).band = .red ∧ g.band ≠ .red := by simp [EntersRed, h]
    rw [if_congr hiff rfl rfl, tick_of_sampled h]
    exact advanceBand_redEntryTime

/-! ### Sequences of ticks -/

end Governor

def Tick.Valid (t : Tick) : Prop := ∀ w ∈ t.config, w.yellowPct ≤ w.redPct ∧ 0 ≤ w.hysteresisPct

def Ordered (created : ℚ) (ticks : List Tick) : Prop := (created :: ticks.map Tick.now).Pairwise (· ≤ ·)

section Ticks

variable {created : ℚ} {ticks : List Tick} {t : Tick}

theorem Ordered.init (h : Ordered created (ticks ++ [t])) : Ordered created ticks := by
  unfold Ordered at h ⊢
  rw [map_append, ← cons_append] at h
  exact (pairwise_append.1 h).1

theorem Ordered.le_last (h : Ordered created (ticks ++ [t])) : created ≤ t.now ∧ ∀ u ∈ ticks, u.now ≤ t.now := by
  unfold Ordered at h
  rw [map_append, ← cons_append] at h
  have hlast := (pairwise_append.1 h).2.2
  refine ⟨hlast _ mem_cons_self _ (by simp), fun u hu => hlast _ ?_ _ (by simp)⟩
  exact mem_cons_of_mem _ (mem_map_of_mem hu)

namespace Governor

theorem after_append : after created (ticks ++ [t]) = (after created ticks).tick t := by simp [after]

/-- The entry time is not before the creation, nor before any tick that entered RED. -/
structure Entered (created : ℚ) (ticks : List Tick) (entry : ℚ) : Prop where
  start : created ≤ entry
  entries : ∀ before u rest, ticks = before ++ u :: rest → (after created before).EntersRed u → u.now ≤ entry

open Classical in
theorem exists_entered (h : Ordered created ticks) :
    ∃ entry, (after created ticks).redEntryTime = some entry ∧ Entered created ticks entry := by
  induction ticks using List.reverseRecOn with
  | nil => exact ⟨created, rfl, le_rfl, fun before u rest hnil => by simp at hnil⟩
  | append_singleton ticks t ih =>
    obtain ⟨entry, hentry, hold⟩ := ih h.init
    -- the tick that entered RED is the last one, or one before it
    have hsplit : ∀ before u rest, ticks ++ [t] = before ++ u :: rest →
        (before = ticks ∧ u = t) ∨ ∃ rest', ticks = before ++ u :: rest' := by
      intro before u rest heq
      rcases eq_nil_or_concat rest with rfl | ⟨rest', v, rfl⟩
      · obtain ⟨rfl, hu⟩ := append_inj' heq rfl
        exact .inl ⟨rfl, (singleton_inj.1 hu).symm⟩
      · rw [concat_eq_append, ← cons_append, ← append_assoc] at heq
        exact .inr ⟨rest', (append_inj' heq rfl).1⟩
    rw [after_append, tick_redEntryTime]
    split
    · rename_i henters
      refine ⟨t.now, rfl, h.le_last.1, fun before u rest heq _ => ?_⟩
      rcases hsplit before u rest heq with ⟨-, rfl⟩ | ⟨rest', rfl⟩
      · exact le_rfl
      · exact h.le_last.2 u (by simp)
    · rename_i hnot
      refine ⟨entry, hentry, hold.start, fun before u rest heq henters => ?_⟩
      rcases hsplit before u rest heq with ⟨rfl, rfl⟩ | ⟨rest', heq'⟩
      · exact absurd henters hnot
      · exact hold.entries before u rest' heq' henters

theorem sampled_of_firstTick (h : (after created ticks).firstTick = false) :
    ∃ before u rest, ticks = before ++ u :: rest ∧ ((after created before).sampled u).isSome := by
  induction ticks using List.reverseRecOn with
  | nil => cases h
  | append_singleton ticks t ih =>
    rw [after_append, tick_firstTick] at h
    cases hsample : (after created ticks).sampled t with
    | some p => exact ⟨ticks, t, [], rfl, by simp [hsample]⟩
    | none =>
      obtain ⟨before, u, rest, rfl, hsome⟩ := ih (by simpa [hsample] using h)
      exact ⟨before, u, rest ++ [t], by simp, hsome⟩

end Governor

structure SafeTick (created : ℚ) (ticks : List Tick) (t : Tick) : Prop where
  forced : (Governor.after created ticks).forcesRed t = true → (Governor.after created (ticks ++ [t])).band = .red
  pressed : ∀ w sample pswpin, (Governor.after created ticks).sampled t = some (w, sample, pswpin) →
    w.yellowPct ≤ sample.usedPct → (Governor.after created (ticks ++ [t])).band ≠ .green
  /-- RED is left below the red line by the hysteresis, without swap forcing, and after the dwell time, which runs
  from the creation of the governor and from every tick that entered RED. -/
  leaves : (Governor.after created ticks).band = .red → (Governor.after created (ticks ++ [t])).band ≠ .red →
    ∃ w sample pswpin, (Governor.after created ticks).sampled t = some (w, sample, pswpin) ∧
      sample.usedPct < w.redPct - w.hysteresisPct ∧ w.swapForces sample = false ∧ w.redMinDwell ≤ t.now - created ∧
      ∀ before u rest, ticks = before ++ u :: rest → (Governor.after created before).EntersRed u →
        w.redMinDwell ≤ t.now - u.now
  admission : ∀ maxUsedPct, (Governor.after created ticks).admissionAllowed maxUsedPct = true →
    (Governor.after created ticks).band ≠ .red ∧
    ∃ before u rest, ticks = before ++ u :: rest ∧ ((Governor.after created before).sampled u).isSome

theorem safeTick (hvalid : t.Valid) (hordered : Ordered created (ticks ++ [t])) : SafeTick created ticks t := by
  constructor
  · intro hforced
    rw [Governor.after_append]
    cases hsample : (Governor.after created ticks).sampled t with
    | none => rw [Governor.tick_of_failed hsample]; rfl
    | some p =>
      obtain ⟨w, sample, pswpin⟩ := p
      rw [Governor.tick_of_sampled hsample]
      rw [Governor.forcesRed, hsample] at hforced
      exact Governor.advanceBand_of_pressed (hvalid w (Governor.config_of_sampled hsample)).2 hforced
  · intro w sample pswpin hsample hused
    rw [Governor.after_append, Governor.tick_of_sampled hsample]
    exact Governor.advanceBand_ne_green (hvalid w (Governor.config_of_sampled hsample)).2 hused
  · intro hred hleft
    rw [Governor.after_append] at hleft
    cases hsample : (Governor.after created ticks).sampled t with
    | none => rw [Governor.tick_of_failed hsample] at hleft; exact absurd rfl hleft
    | some p =>
      obtain ⟨w, sample, pswpin⟩ := p
      rw [Governor.tick_of_sampled hsample] at hleft
      have hleave := Governor.advanceBand_leaves (g := (Governor.after created ticks).record sample pswpin) hred hleft
      obtain ⟨hused, hswap, hdwell⟩ := Governor.mayLeaveRed_iff.1 hleave
      obtain ⟨entry, hentry, hentered⟩ := Governor.exists_entered hordered.init
      obtain ⟨hcreated, hlast⟩ := hordered.le_last
      -- the dwell time is over since any moment before the entry time, and before now if there is none
      have hover : ∀ u ≤ entry, u ≤ t.now → w.redMinDwell ≤ t.now - u := by
        intro u hu hnow
        rcases (Bool.or_eq_true ..).mp hdwell with hzero | hsince
        · have := of_decide_eq_true hzero; linarith
        · have hentry' : ((Governor.after created ticks).record sample pswpin).redEntryTime = some entry := hentry
          rw [hentry'] at hsince
          have := of_decide_eq_true hsince; linarith
      refine ⟨w, sample, pswpin, rfl, hused, hswap, hover created hentered.start hcreated, ?_⟩
      intro before u rest heq henters
      exact hover u.now (hentered.entries before u rest heq henters) (hlast u (by simp [heq]))
  · intro maxUsedPct hallowed
    unfold Governor.admissionAllowed at hallowed
    split_ifs at hallowed with hfirst hred
    exact ⟨hred, Governor.sampled_of_firstTick (by simpa using hfirst)⟩

end Ticks

/-! ### Runs -/

def hostReaders (used : ℤ) : Readers := ⟨100, used, false, .unavailable, .unavailable, .unavailable,
    .unavailable, .value 0⟩

def defaults : Watermarks := ⟨70, 85, 10, true, 100, 30⟩

def hostTick (used : ℤ) (now : ℚ) : Tick := ⟨some defaults, hostReaders used, now⟩

/-- RED is entered at a tick, and left when the dwell time is over. -/
theorem safeTick_thirty : (Governor.after 0 [hostTick 50 40, hostTick 90 50]).band = .red ∧
    (Governor.after 0 [hostTick 50 40, hostTick 90 50, hostTick 55 80]).band = .green ∧
    SafeTick 0 [hostTick 50 40, hostTick 90 50] (hostTick 55 80) := by
  refine ⟨by decide +kernel, by decide +kernel, safeTick ?_ ?_⟩
  · rintro w ⟨⟩
    decide
  · unfold Ordered
    decide +kernel

/-- The dwell time does not run from a tick that finds RED and forces it: RED is left a second later. -/
theorem left_red_after_one_second : Ordered 0 [hostTick 90 100, hostTick 50 101] ∧
    (Governor.after 0 []).forcesRed (hostTick 90 100) = true ∧ (Governor.after 0 [hostTick 90 100]).band = .red ∧
    (Governor.after 0 [hostTick 90 100, hostTick 50 101]).band ≠ .red ∧
    ¬defaults.redMinDwell ≤ (hostTick 50 101).now - (hostTick 90 100).now := by
  unfold Ordered
  decide +kernel

end CodeIndexer.Memory
