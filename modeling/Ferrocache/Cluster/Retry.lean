import Mathlib.Tactic.IntervalCases
import Ferrocache.Cluster.Forwarding

/-!
# The retry loop of the router

`forward_with_retry`, `is_retryable` and `compute_retry_delay` (`router.rs`).
The requests of one call are numbered from 0, and the outcomes of all the
requests that might be made are given in advance.

The delay before a retry is computed in 64 bits.  `checked_shl` refuses a shift
of 64 and more, but not a shift that pushes bits out, and the attempt number is
cut to 32 bits first, so the documented curve is left at a few attempt numbers
(`envelope_iff_onCurve`).
-/

namespace Ferrocache

/-! ## The delay -/

/-- `MAX_RETRY_DELAY_MS` -/
def maxRetryDelayMs : Nat := 5000

/-- `u64::checked_shl`: `None` for a shift of 64 or more; bits that are shifted
out are lost. -/
def checkedShl (value shift : Nat) : Option Nat :=
  if shift < 64 then some (value <<< shift % 2 ^ 64) else none

/-- `shift` in `compute_retry_delay`. -/
def retryShift (attempt : Nat) : Nat := attempt % 2 ^ 32 - 1

/-- `base_ms` in `compute_retry_delay`. -/
def retryBaseMs (attempt : Nat) : Nat :=
  min ((checkedShl 50 (retryShift attempt)).getD maxRetryDelayMs) maxRetryDelayMs

/-- `jitter_ms`: a fifth of the base, rounded down. -/
def retryJitterMs (attempt : Nat) : Nat := retryBaseMs attempt / 5

/-- The values that the generator may return for an attempt. -/
def Drawn (attempt : Nat) (drawn : Int) : Prop :=
  -(retryJitterMs attempt : Int) ≤ drawn ∧ drawn ≤ retryJitterMs attempt

instance (attempt : Nat) (drawn : Int) : Decidable (Drawn attempt drawn) :=
  inferInstanceAs (Decidable (_ ∧ _))

/-- `compute_retry_delay`, in milliseconds. -/
def computeRetryDelay (attempt : Nat) (drawn : Int) : Nat :=
  let signedJitter := if 0 < retryJitterMs attempt then drawn else 0
  (max (retryBaseMs attempt + signedJitter) 1).toNat

/-- The documented curve: 50 ms doubled with every attempt, at most 5 s. -/
def backoffMs (attempt : Nat) : Nat := min (50 * 2 ^ (attempt - 1)) maxRetryDelayMs

/-- Every delay of the attempt is within 20% of the curve. -/
def Envelope (attempt : Nat) : Prop :=
  ∀ drawn, Drawn attempt drawn →
    80 * backoffMs attempt ≤ 100 * computeRetryDelay attempt drawn ∧
      100 * computeRetryDelay attempt drawn ≤ 120 * backoffMs attempt

/-- The attempt numbers at which the computed base is the curve. -/
def OnCurve (attempt : Nat) : Prop :=
  attempt % 2 ^ 32 ≠ 64 ∧ (attempt < 2 ^ 32 ∨ 8 ≤ attempt % 2 ^ 32)

instance (attempt : Nat) : Decidable (OnCurve attempt) :=
  inferInstanceAs (Decidable (_ ∧ _))

theorem retryBaseMs_le (attempt : Nat) : retryBaseMs attempt ≤ maxRetryDelayMs :=
  Nat.min_le_right _ _

/-- Every residue but 64 reaches the cap from 8 on: the shift is refused or
keeps a high bit. -/
theorem retryBaseMs_of_ge {attempt : Nat} (reached : 8 ≤ attempt % 2 ^ 32)
    (other : attempt % 2 ^ 32 ≠ 64) : retryBaseMs attempt = maxRetryDelayMs := by
  unfold retryBaseMs checkedShl retryShift
  generalize attempt % 2 ^ 32 = residue at reached other
  by_cases refused : 64 ≤ residue - 1
  · rw [if_neg (by omega)]
    rfl
  · have bound : residue < 65 := by omega
    rw [if_pos (by omega)]
    interval_cases residue <;> first | rfl | exact absurd rfl other

/-- Below 8 the shift is exact. -/
theorem retryBaseMs_of_lt {attempt : Nat} (low : attempt % 2 ^ 32 < 8) :
    retryBaseMs attempt = 50 * 2 ^ (attempt % 2 ^ 32 - 1) := by
  unfold retryBaseMs checkedShl retryShift
  generalize attempt % 2 ^ 32 = residue at low
  interval_cases residue <;> rfl

/-- A shift of 63 loses all three bits of 50. -/
theorem retryBaseMs_of_eq {attempt : Nat} (lost : attempt % 2 ^ 32 = 64) :
    retryBaseMs attempt = 0 := by
  unfold retryBaseMs checkedShl retryShift
  rw [lost]
  rfl

theorem backoffMs_of_ge {attempt : Nat} (reached : 8 ≤ attempt) :
    backoffMs attempt = maxRetryDelayMs := by
  have grown : 2 ^ 7 ≤ 2 ^ (attempt - 1) := Nat.pow_le_pow_right (by decide) (by omega)
  exact Nat.min_eq_right (by unfold maxRetryDelayMs; omega)

theorem backoffMs_of_lt {attempt : Nat} (low : attempt < 8) :
    backoffMs attempt = 50 * 2 ^ (attempt - 1) := by
  have small : 2 ^ (attempt - 1) ≤ 2 ^ 6 := Nat.pow_le_pow_right (by decide) (by omega)
  exact Nat.min_eq_left (by unfold maxRetryDelayMs; omega)

theorem retryBaseMs_eq_backoffMs {attempt : Nat} (on : OnCurve attempt) :
    retryBaseMs attempt = backoffMs attempt := by
  obtain ⟨other, early⟩ := on
  by_cases reached : 8 ≤ attempt % 2 ^ 32
  · have high : 8 ≤ attempt := Nat.le_trans reached (Nat.mod_le _ _)
    rw [retryBaseMs_of_ge reached other, backoffMs_of_ge high]
  · have small : attempt < 2 ^ 32 := early.resolve_right reached
    rw [retryBaseMs_of_lt (by omega), Nat.mod_eq_of_lt small, backoffMs_of_lt (by
      rw [Nat.mod_eq_of_lt small] at reached
      omega)]

/-- Off the curve the base is at most 3.2 s, where the curve has 5 s. -/
theorem retryBaseMs_of_not_onCurve {attempt : Nat} (off : ¬ OnCurve attempt) :
    retryBaseMs attempt ≤ 3200 ∧ backoffMs attempt = maxRetryDelayMs := by
  by_cases lost : attempt % 2 ^ 32 = 64
  · have high : 8 ≤ attempt := by omega
    rw [retryBaseMs_of_eq lost, backoffMs_of_ge high]
    exact ⟨by decide, rfl⟩
  · unfold OnCurve at off
    have low : attempt % 2 ^ 32 < 8 := by omega
    have high : 8 ≤ attempt := by omega
    have small : 2 ^ (attempt % 2 ^ 32 - 1) ≤ 2 ^ 6 :=
      Nat.pow_le_pow_right (by decide) (by omega)
    rw [retryBaseMs_of_lt low, backoffMs_of_ge high]
    exact ⟨by omega, rfl⟩

/-- A delay stays within a fifth of its base, and is 1 ms for the base 0. -/
theorem computeRetryDelay_bounds {attempt : Nat} {drawn : Int} (range : Drawn attempt drawn) :
    80 * retryBaseMs attempt ≤ 100 * computeRetryDelay attempt drawn ∧
      100 * computeRetryDelay attempt drawn ≤ max (120 * retryBaseMs attempt) 100 := by
  have fifth : retryJitterMs attempt = retryBaseMs attempt / 5 := rfl
  unfold Drawn at range
  simp only [computeRetryDelay]
  split <;> omega

/-- Within the documented 20% exactly at the attempt numbers on the curve; and
where the curve has reached its cap, only there does the delay keep to it. -/
theorem envelope_iff_onCurve (attempt : Nat) :
    (Envelope attempt ↔ OnCurve attempt) ∧
      (backoffMs attempt = maxRetryDelayMs →
        ((∀ drawn, Drawn attempt drawn → 4000 ≤ computeRetryDelay attempt drawn) ↔
          OnCurve attempt)) := by
  have zero : Drawn attempt 0 := ⟨by omega, by omega⟩
  have below : ¬ OnCurve attempt → computeRetryDelay attempt 0 < 4000 := by
    intro off
    obtain ⟨low, -⟩ := retryBaseMs_of_not_onCurve off
    obtain ⟨-, upper⟩ := computeRetryDelay_bounds zero
    omega
  have within : OnCurve attempt → Envelope attempt := by
    intro on drawn range
    obtain ⟨lower, upper⟩ := computeRetryDelay_bounds range
    rw [retryBaseMs_eq_backoffMs on] at lower upper
    have positive : 1 ≤ 2 ^ (attempt - 1) := Nat.one_le_two_pow
    have least : 50 ≤ backoffMs attempt := by
      unfold backoffMs maxRetryDelayMs
      omega
    exact ⟨lower, by omega⟩
  refine ⟨⟨fun envelope => ?_, within⟩, fun capped => ⟨fun kept => ?_, fun on drawn range => ?_⟩⟩
  · by_contra off
    obtain ⟨-, capped⟩ := retryBaseMs_of_not_onCurve off
    have lower := (envelope 0 zero).1
    rw [capped] at lower
    unfold maxRetryDelayMs at lower
    exact absurd (below off) (by omega)
  · by_contra off
    exact absurd (below off) (Nat.not_lt.mpr (kept 0 zero))
  · have lower := (within on drawn range).1
    rw [capped] at lower
    unfold maxRetryDelayMs at lower
    omega

/-- Attempt 64 waits 1 ms, where the attempts around it wait at least 4 s. -/
theorem computeRetryDelay_attempt_64 :
    Drawn 64 0 ∧ backoffMs 64 = 5000 ∧ computeRetryDelay 64 0 = 1 ∧ ¬ Envelope 64 := by
  refine ⟨by decide, by decide, by decide, fun envelope => ?_⟩
  exact absurd (envelope 0 (by decide)).1 (by decide)

/-! ## The loop -/

/-- `reqwest::Error`, as far as the retry layer looks at it. -/
structure RequestError : Type where
  isConnect : Bool
  isTimeout : Bool
  /-- the status code of the response, for an error of `error_for_status` -/
  status : Option Nat
  message : String
  deriving DecidableEq

/-- `StatusCode::is_server_error` -/
def isServerError (status : Nat) : Bool := decide (500 ≤ status ∧ status < 600)

def isRetryable (e : RequestError) : Bool :=
  if e.isConnect || e.isTimeout then true else e.status.any isServerError

/-- What a call of `forward_with_retry` comes to: `context` is the text that
`anyhow` puts in front of the error, and `panicked` the failed `expect`. -/
inductive Forwarded (T : Type) : Type
  | ok (value : T)
  | failed (context : String) (e : RequestError)
  | panicked
  deriving DecidableEq

/-- The local variables of the loop and what it does to the outside: the requests
it has made, the counter `replication_retries_total`, the delays it has slept. -/
structure Retrying : Type where
  lastErr : Option RequestError
  requests : Nat
  retriesTotal : UInt64
  slept : List Nat
  deriving DecidableEq

namespace Retrying

variable {T : Type} (outcomes : Nat → Except RequestError T) (drawn : Nat → Int)

/-- What stands before the request of an attempt; the counter wraps around. -/
def delay (attempt : Nat) (s : Retrying) : Retrying :=
  if attempt = 0 then s
  else
    { s with
      retriesTotal := s.retriesTotal + 1
      slept := s.slept ++ [computeRetryDelay attempt (drawn attempt)] }

def request (s : Retrying) : Retrying := { s with requests := s.requests + 1 }

/-- The loop with `left` attempts to go, from attempt `attempt` on. -/
def loop : Nat → Nat → Retrying → Forwarded T × Retrying
  | 0, _, s =>
    match s.lastErr with
    | some e => (.failed "replication forward exhausted retries" e, s)
    | none => (.panicked, s)
  | left + 1, attempt, s =>
    let s := (s.delay drawn attempt).request
    match outcomes attempt with
    | .ok value => (.ok value, s)
    | .error e =>
      if isRetryable e then loop left (attempt + 1) { s with lastErr := some e }
      else (.failed "replication forward failed" e, s)

end Retrying

/-- `forward_with_retry`, started with the counter at `retriesTotal`. -/
def forwardWithRetry {T : Type} (maxRetries : Nat) (retriesTotal : UInt64)
    (outcomes : Nat → Except RequestError T) (drawn : Nat → Int) : Forwarded T × Retrying :=
  Retrying.loop outcomes drawn (totalAttempts maxRetries) 0 ⟨none, 0, retriesTotal, []⟩

/-- The outcome of a request that is worth another one. -/
def RetryableFailure {T : Type} (outcome : Except RequestError T) : Prop :=
  ∃ e, outcome = .error e ∧ isRetryable e = true

namespace Retrying

variable {T : Type} {outcomes : Nat → Except RequestError T} (drawn : Nat → Int)
  {retriesTotal : UInt64} {total left attempt : Nat} {s : Retrying} {run : Forwarded T × Retrying}

/-- The loop stands in front of an attempt: all the earlier ones failed, and the
error of the last of them is stored. -/
structure Before (outcomes : Nat → Except RequestError T) (retriesTotal : UInt64)
    (attempt : Nat) (s : Retrying) : Prop where
  requests : s.requests = attempt
  retried : ∀ j, j < attempt → RetryableFailure (outcomes j)
  stored : 0 < attempt → ∃ e, outcomes (attempt - 1) = .error e ∧ s.lastErr = some e
  counter : s.retriesTotal = retriesTotal + UInt64.ofNat (attempt - 1)

/-- The loop is over, with attempt `last` as the last one. -/
structure Ended (outcomes : Nat → Except RequestError T) (retriesTotal : UInt64) (total last : Nat)
    (run : Forwarded T × Retrying) : Prop where
  requests : run.2.requests = last + 1
  retried : ∀ j, j < last → RetryableFailure (outcomes j)
  within : last < total
  final : RetryableFailure (outcomes last) → last + 1 = total
  answers : (∃ value, outcomes last = .ok value ∧ run.1 = .ok value) ∨
    ∃ e context, outcomes last = .error e ∧ run.1 = .failed context e
  counter : run.2.retriesTotal = retriesTotal + UInt64.ofNat last

/-- One request, with the delay in front of it. -/
theorem Before.attempted (before : Before outcomes retriesTotal attempt s) :
    (s.delay drawn attempt).request.requests = attempt + 1 ∧
      (s.delay drawn attempt).request.retriesTotal = retriesTotal + UInt64.ofNat attempt := by
  obtain ⟨requests, -, -, counter⟩ := before
  unfold delay request
  split
  case isTrue start =>
    subst start
    exact ⟨by rw [requests], counter⟩
  case isFalse later =>
    obtain ⟨previous, rfl⟩ := Nat.exists_eq_succ_of_ne_zero later
    refine ⟨by rw [requests], ?_⟩
    simp only [Nat.succ_eq_add_one, Nat.add_sub_cancel] at counter ⊢
    rw [counter, UInt64.ofNat_add, UInt64.add_assoc]
    rfl

theorem Before.next {e : RequestError} (before : Before outcomes retriesTotal attempt s)
    (failed : outcomes attempt = .error e) (retryable : isRetryable e = true) :
    Before outcomes retriesTotal (attempt + 1)
      { (s.delay drawn attempt).request with lastErr := some e } := by
  obtain ⟨requests, counter⟩ := before.attempted drawn
  refine ⟨requests, fun j lt => ?_, fun _ => ⟨e, failed, rfl⟩, counter⟩
  rcases Nat.lt_succ_iff_lt_or_eq.mp lt with earlier | rfl
  · exact before.retried j earlier
  · exact ⟨e, failed, retryable⟩

/-- Every exit of the loop, by induction on the attempts that are left. -/
theorem Before.loop_ended (before : Before outcomes retriesTotal attempt s)
    (sum : attempt + left = total) (some_left : attempt = 0 → 0 < left) :
    ∃ last, Ended outcomes retriesTotal total last (loop outcomes drawn left attempt s) := by
  induction left generalizing attempt s with
  | zero =>
    have positive : 0 < attempt := by
      by_contra none_made
      exact absurd (some_left (by omega)) (Nat.lt_irrefl 0)
    obtain ⟨e, failed, stored⟩ := before.stored positive
    simp only [loop, stored]
    refine ⟨attempt - 1, ?_, ?_, by omega, by omega, .inr ⟨e, _, failed, rfl⟩, before.counter⟩
    · rw [before.requests]
      omega
    · exact fun j lt => before.retried j (by omega)
  | succ left ih =>
    obtain ⟨requests, counter⟩ := before.attempted drawn
    rcases outcome : outcomes attempt with e | value
    · by_cases retryable : isRetryable e = true
      · simp only [loop, outcome, retryable, if_true]
        exact ih (before.next drawn outcome retryable) (by omega) (by omega)
      · simp only [loop, outcome, if_neg retryable]
        refine ⟨attempt, requests, before.retried, by omega, ?_, .inr ⟨e, _, outcome, rfl⟩, counter⟩
        intro given
        rcases given with ⟨e', failed, retried⟩
        rw [outcome] at failed
        cases failed
        exact absurd retried retryable
    · simp only [loop, outcome]
      refine ⟨attempt, requests, before.retried, by omega, ?_, .inl ⟨value, outcome, rfl⟩, counter⟩
      intro given
      rcases given with ⟨e, failed, -⟩
      rw [outcome] at failed
      cases failed

end Retrying

/-- The contract of `forward_with_retry`: how many requests it makes, what it
returns, and what it adds to the counter. -/
structure RetryContract {T : Type} (maxRetries : Nat) (retriesTotal : UInt64)
    (outcomes : Nat → Except RequestError T) (run : Forwarded T × Retrying) : Prop where
  /-- it stops at the first outcome that is not a retryable failure -/
  stops : ∀ i, i < totalAttempts maxRetries → ¬ RetryableFailure (outcomes i) →
    (∀ j, j < i → RetryableFailure (outcomes j)) → run.2.requests = i + 1
  /-- and after the last attempt -/
  exhausts : (∀ j, j < totalAttempts maxRetries → RetryableFailure (outcomes j)) →
    run.2.requests = totalAttempts maxRetries
  /-- at least one request is made, so there is a last one -/
  issues : 0 < run.2.requests
  ok_iff : ∀ value, run.1 = .ok value ↔ outcomes (run.2.requests - 1) = .ok value
  carries : ∀ e, outcomes (run.2.requests - 1) = .error e →
    ∃ context, run.1 = .failed context e
  counts : run.2.retriesTotal = retriesTotal + UInt64.ofNat (run.2.requests - 1)
  expects : run.1 ≠ .panicked

theorem totalAttempts_pos (maxRetries : Nat) : 0 < totalAttempts maxRetries := by
  unfold totalAttempts usizeMax
  omega

/-- A `for` loop over at least one attempt, whatever the outcomes are. -/
theorem forwardWithRetry_contract {T : Type} (maxRetries : Nat) (retriesTotal : UInt64)
    (outcomes : Nat → Except RequestError T) (drawn : Nat → Int) :
    RetryContract maxRetries retriesTotal outcomes
      (forwardWithRetry maxRetries retriesTotal outcomes drawn) := by
  have start : Retrying.Before outcomes retriesTotal 0 ⟨none, 0, retriesTotal, []⟩ :=
    ⟨rfl, fun j lt => absurd lt (Nat.not_lt_zero j), fun lt => absurd lt (Nat.lt_irrefl 0),
      (UInt64.add_zero _).symm⟩
  obtain ⟨last, ended⟩ := start.loop_ended drawn (Nat.zero_add _)
    (fun _ => totalAttempts_pos maxRetries)
  change Retrying.Ended _ _ _ _ (forwardWithRetry maxRetries retriesTotal outcomes drawn) at ended
  generalize forwardWithRetry maxRetries retriesTotal outcomes drawn = run at ended
  have lastIs : run.2.requests - 1 = last := by
    rw [ended.requests, Nat.add_sub_cancel]
  refine ⟨fun i lt other retried => ?_, fun retried => ?_, ?_, fun value => ?_, fun e failed => ?_,
    ?_, ?_⟩
  · have le : last ≤ i := by
      by_contra later
      exact other (ended.retried i (by omega))
    have ge : i ≤ last := by
      by_contra earlier
      have full := ended.final (retried last (by omega))
      omega
    rw [ended.requests, Nat.le_antisymm le ge]
  · rw [ended.requests, ended.final (retried last ended.within)]
  · rw [ended.requests]
    exact Nat.succ_pos last
  · rw [lastIs]
    rcases ended.answers with ⟨given, outcome, result⟩ | ⟨e, context, outcome, result⟩
    · rw [outcome, result, Forwarded.ok.injEq, Except.ok.injEq]
    · rw [outcome, result]
      exact iff_of_false nofun nofun
  · rw [lastIs] at failed
    rcases ended.answers with ⟨given, outcome, -⟩ | ⟨e', context, outcome, result⟩
    · rw [outcome] at failed
      cases failed
    · rw [outcome] at failed
      cases failed
      exact ⟨context, result⟩
  · rw [lastIs]
    exact ended.counter
  · rcases ended.answers with ⟨given, -, result⟩ | ⟨e, context, -, result⟩
    · simp [result]
    · simp [result]

/-! ## What the machines of the cluster see of it -/

/-- An outcome as the handlers' machines have it. -/
def ForwardOutcome.of {T : Type} : Except RequestError T → ForwardOutcome
  | .ok _ => .ok
  | .error e => if isRetryable e then .retryable else .fatal

/-- A forward of a `Handling` makes as many requests as the loop, and is a success
when the loop returns one. -/
theorem Retrying.loop_attempts {T : Type} (outcomes : Nat → Except RequestError T)
    (drawn : Nat → Int) (left attempt : Nat) (s : Retrying) :
    let seen := Handling.attempts (fun i => .of (outcomes i)) left attempt
    let run := loop outcomes drawn left attempt s
    run.2.requests = s.requests + seen.1 ∧ (seen.2 = true ↔ ∃ value, run.1 = .ok value) := by
  induction left generalizing attempt s with
  | zero =>
    rcases stored : s.lastErr with _ | e
    · simp [loop, stored, Handling.attempts]
    · simp [loop, stored, Handling.attempts]
  | succ left ih =>
    have same : (s.delay drawn attempt).request.requests = s.requests + 1 := by
      unfold delay request
      split <;> rfl
    rcases outcome : outcomes attempt with e | value
    · by_cases retryable : isRetryable e = true
      · have classified : ForwardOutcome.of (.error e : Except RequestError T) = .retryable := by
          simp [ForwardOutcome.of, retryable]
        simp only [loop, Handling.attempts, outcome, classified, retryable, if_true]
        obtain ⟨count, ok⟩ := ih (attempt + 1)
          ⟨some e, (s.delay drawn attempt).request.requests,
            (s.delay drawn attempt).request.retriesTotal, (s.delay drawn attempt).request.slept⟩
        refine ⟨?_, ok⟩
        simp only [same] at count ⊢
        omega
      · simp [loop, Handling.attempts, ForwardOutcome.of, outcome, retryable, same]
    · simp [loop, Handling.attempts, ForwardOutcome.of, outcome, same]

/-- No delay is longer than 6 s, also off the curve: a large `max_retries` does
not park the caller before one request. -/
theorem Retrying.loop_slept_le {T : Type} (outcomes : Nat → Except RequestError T)
    {drawn : Nat → Int} (range : ∀ i, Drawn i (drawn i)) (left attempt : Nat) (s : Retrying)
    (short : ∀ ms ∈ s.slept, ms ≤ 6000) :
    ∀ ms ∈ (loop outcomes drawn left attempt s).2.slept, ms ≤ 6000 := by
  induction left generalizing attempt s with
  | zero =>
    unfold loop
    split <;> exact short
  | succ left ih =>
    have next : ∀ ms ∈ (s.delay drawn attempt).request.slept, ms ≤ 6000 := by
      unfold delay request
      split
      · exact short
      · intro ms mem
        rcases List.mem_append.mp mem with earlier | now
        · exact short ms earlier
        · have upper := (computeRetryDelay_bounds (range attempt)).2
          have capped := retryBaseMs_le attempt
          rw [List.mem_singleton.mp now]
          unfold maxRetryDelayMs at capped
          omega
    unfold loop
    split
    · exact next
    · split
      · exact ih _ _ next
      · exact next

end Ferrocache
