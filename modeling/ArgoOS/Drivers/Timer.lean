import ArgoOS.Drivers.Serial
import ArgoOS.Task.SleepTime

set_option autoImplicit false

/-!
# The timer

`timer.c` and the `time` command of the shell. The tick counter is the scheduler's.
-/

namespace ArgoOS.Timer

open Stepper Tasking Text

def pitFrequency : UInt32 := 1193180

structure Timer where
  trace : TaskTrace
  timerFrequency : UInt32

-- The timer and what goes to the ports of the PIT. A division by 0 has no result.
def timerInit (trace : TaskTrace) (frequency : UInt32) : Option (Timer × List (UInt16 × UInt8)) :=
  if frequency = 0 then none
  else
    let divisor := pitFrequency / frequency
    let low := (divisor &&& 0xFF).toUInt8
    let high := (divisor >>> 8 &&& 0xFF).toUInt8
    some (⟨trace.withSched { trace.sched with ticks := 0 }, frequency⟩,
      [(0x43, 0x36), (0x40, low), (0x40, high)])

def timerGetTicks (t : Timer) : UInt32 := t.trace.sched.ticks

def timerGetMs (t : Timer) : UInt32 := timerGetTicks t * 1000 / t.timerFrequency

def cmdTime (t : Timer) : Option (List UInt8) := do
  let ms := timerGetMs t
  let seconds := ms / 1000
  let minutes := seconds / 60
  let hours := minutes / 60
  return Serial.serialPuts (ascii "System uptime: ") ++ (← Serial.serialPutdec hours) ++
    Serial.serialPuts (ascii "h ") ++ (← Serial.serialPutdec (minutes % 60)) ++
    Serial.serialPuts (ascii "m ") ++ (← Serial.serialPutdec (seconds % 60)) ++
    Serial.serialPuts (ascii "s (") ++ (← Serial.serialPutdec ms) ++
    Serial.serialPuts (ascii " ms)\n")

def timerStep (t : Timer) (call : TaskCall) : Option (Timer × List Unit) :=
  (tickStep t.trace call).map fun (trace, events) => ({ t with trace }, events)

def AnyCall (_ : Timer) (_ : TaskCall) : Prop := True

def uptimeText (n : Nat) : List UInt8 :=
  ascii "System uptime: " ++ decimal (n / 3600000) ++ ascii "h " ++ decimal (n / 60000 % 60) ++
    ascii "m " ++ decimal (n / 1000 % 60) ++ ascii "s (" ++ decimal n ++ ascii " ms)\r\n"

theorem cmdTime_text (t : Timer) : cmdTime t = some (uptimeText (timerGetMs t).toNat) := by
  simp only [cmdTime, Serial.serialPutdec_decimal, UInt32.toNat_div, UInt32.toNat_mod,
    UInt32.toNat_ofNat, Nat.div_div_eq_div_mul, Option.bind_eq_bind, Option.bind_some]
  rfl

theorem timerStep_run {start t : Timer} {history : List Unit}
    (run : Run timerStep AnyCall start history t) :
    t.timerFrequency = start.timerFrequency ∧
      timerGetTicks t = timerGetTicks start + UInt32.ofNat history.length := by
  refine run.invariant (fun history t => t.timerFrequency = start.timerFrequency ∧
    timerGetTicks t = timerGetTicks start + UInt32.ofNat history.length) (by simp) ?_
  rintro history before after call events ⟨frequency, counted⟩ - taken
  obtain ⟨⟨trace, events'⟩, stepped, same⟩ := Option.map_eq_some_iff.mp taken
  cases same
  refine ⟨frequency, ?_⟩
  rw [← counted_append, ← counted]
  exact tickStep_ticks stepped

structure ShowsUptime (start : Timer) (history : List Unit) (t : Timer) : Prop where
  exact : (timerGetMs t).toNat = history.length * 1000 / t.timerFrequency.toNat
  printed : cmdTime t = some (uptimeText (history.length * 1000 / t.timerFrequency.toNat))
  monotone : ∀ history' t', Run timerStep AnyCall start history' t' →
    history'.length ≤ history.length → timerGetMs t' ≤ timerGetMs t

section

variable {trace : TaskTrace} {frequency : UInt32} {start t : Timer} {ports : List (UInt16 × UInt8)}
  {history : List Unit}

theorem timerGetMs_run (init : timerInit trace frequency = some (start, ports))
    (run : Run timerStep AnyCall start history t) : t.timerFrequency = frequency ∧
      (timerGetMs t).toNat = history.length * 1000 % 2 ^ 32 / frequency.toNat := by
  unfold timerInit at init
  split at init
  · contradiction
  · cases init
    obtain ⟨same, counted⟩ := timerStep_run run
    have zero : timerGetTicks ⟨trace.withSched { trace.sched with ticks := 0 }, frequency⟩ = 0 := rfl
    rw [zero, UInt32.zero_add] at counted
    refine ⟨same, ?_⟩
    rw [timerGetMs, counted, same, UInt32.toNat_div, UInt32.toNat_mul, UInt32.toNat_ofNat]
    simp [Nat.mul_mod]

-- A product that wraps loses at least `2 ^ 32`, which is more than one quotient.
theorem quotient_exact_iff {product divisor : Nat} (positive : 0 < divisor)
    (small : divisor < 2 ^ 32) :
    product % 2 ^ 32 / divisor = product / divisor ↔ product < 2 ^ 32 := by
  constructor
  · intro same
    by_contra large
    have lost : product % 2 ^ 32 + divisor ≤ product := by omega
    have less := Nat.div_le_div_right (c := divisor) lost
    rw [Nat.add_div_right _ positive, same] at less
    omega
  · intro fits
    rw [Nat.mod_eq_of_lt fits]

end

theorem uptime_exact_iff (trace : TaskTrace) (frequency : UInt32) (positive : 0 < frequency)
    (start : Timer) (ports : List (UInt16 × UInt8))
    (init : timerInit trace frequency = some (start, ports)) (history : List Unit) (t : Timer)
    (run : Run timerStep AnyCall start history t) (counted : history.length < 2 ^ 32)
    (shown : history.length * 1000 / frequency.toNat < 2 ^ 32) :
    ShowsUptime start history t ↔ history.length * 1000 < 2 ^ 32 := by
  obtain ⟨same, ms⟩ := timerGetMs_run init run
  have divisor : 0 < frequency.toNat := positive
  have quotient : history.length * 1000 % 2 ^ 32 / frequency.toNat = _ ↔ _ :=
    quotient_exact_iff divisor frequency.toNat_lt
  constructor
  · intro shows
    have exact := shows.exact
    rw [ms, same] at exact
    exact quotient.mp exact
  · intro fits
    have exact := quotient.mpr fits
    refine ⟨by rw [ms, same, exact], by rw [cmdTime_text, ms, same, exact], ?_⟩
    intro history' t' run' earlier
    obtain ⟨-, ms'⟩ := timerGetMs_run init run'
    have fewer := Nat.mul_le_mul_right 1000 earlier
    have fits' := Nat.lt_of_le_of_lt fewer fits
    rw [UInt32.le_iff_toNat_le, ms, ms', Nat.mod_eq_of_lt fits, Nat.mod_eq_of_lt fits']
    exact Nat.div_le_div_right fewer

def idleTrace : TaskTrace := ⟨taskInit blankSched, [], 0⟩

theorem idle_run (start : Timer) (idle : start.trace.sched.currentTask = none) (ticks : Nat) :
    ∃ t, Run timerStep AnyCall start (List.replicate ticks ()) t ∧
      t.trace.sched.currentTask = none := by
  induction ticks with
  | zero => exact ⟨start, .refl, idle⟩
  | succ ticks ih =>
    obtain ⟨t, run, idle⟩ := ih
    refine ⟨{ t with trace := t.trace.withSched (countTick t.trace.sched) },
      .step _ t _ .timerHandler [()] run trivial ?_, idle⟩
    simp [timerStep, tickStep, taskStep, scheduled, timerHandler, idle]

theorem uptime_exact_iff_250 : ∃ start ports history t, timerInit idleTrace 100 = some (start, ports) ∧
    Run timerStep AnyCall start history t ∧ history.length = 250 ∧
    ShowsUptime start history t := by
  obtain ⟨t, run, -⟩ := idle_run ⟨idleTrace, 100⟩ rfl 250
  have ticks : (List.replicate 250 ()).length = 250 := List.length_replicate
  refine ⟨_, _, _, t, rfl, run, ticks, ?_⟩
  refine (uptime_exact_iff idleTrace 100 (by decide) _ _ rfl _ t run ?_ ?_).mpr ?_
  all_goals rw [ticks]; decide

-- At 100 Hz, the tick after 11 hours and 56 minutes takes the uptime back to 7 ms.
theorem uptime_runs_backwards : ∃ start ports before t before' t',
    timerInit idleTrace 100 = some (start, ports) ∧
    Run timerStep AnyCall start before t ∧ before.length = 4294967 ∧ timerGetMs t = 42949670 ∧
    Run timerStep AnyCall start before' t' ∧ before'.length = 4294968 ∧ timerGetMs t' = 7 := by
  obtain ⟨t, run, -⟩ := idle_run ⟨idleTrace, 100⟩ rfl 4294967
  obtain ⟨t', run', -⟩ := idle_run ⟨idleTrace, 100⟩ rfl 4294968
  have init : timerInit idleTrace 100 = some (⟨idleTrace, 100⟩, _) := rfl
  have ms := (timerGetMs_run init run).2
  have ms' := (timerGetMs_run init run').2
  rw [List.length_replicate] at ms ms'
  exact ⟨_, _, _, t, _, t', init, run, List.length_replicate, UInt32.toNat.inj ms, run',
    List.length_replicate, UInt32.toNat.inj ms'⟩

end ArgoOS.Timer
