import Ferrocache.Lib.Tally
import Ferrocache.Server.Metrics
import Mathlib.Algebra.BigOperators.ModEq
import Mathlib.Algebra.Order.Ring.Rat
import Mathlib.Data.List.FinRange

/-!
# Recording metrics from many threads

The `record_*` functions of `metrics.rs` as what they do to the shared counters:
one atomic increment after another, with the counters of a namespace created on
first use under a lock that was released after the failed lookup.  The increments
are relaxed, so those of one call may take effect in any order, and calls
interleave freely.  In no interleaving is an increment lost or counted twice,
and when no call is in progress the families agree with each other.
-/

namespace Ferrocache

/-! ## The counters -/

/-- The counters of `Metrics` that have no label. -/
inductive Total : Type
  | queriesTotal
  | queriesHit
  | queriesMiss
  | insertsTotal
  | replicationForwardsTotal
  | replicationFailuresTotal
  | replicationRetriesTotal
  | compactionsTotal
  | ringChangesTotal
  | readRepairsTotal
  | readRepairFailuresTotal
  | evictionsTotal
  | indexRebuildsTotal
  | expirationsTotal
  | deletionsTotal
  | invalidationsTotal
  | exactMatchHitsTotal
  deriving DecidableEq

/-- The fields of `NamespaceMetrics`. -/
inductive NamespaceCounter : Type
  | queriesHit
  | queriesMiss
  | inserts
  | evictions
  | expirations
  | deletions
  | invalidations
  | exactMatchHits
  deriving DecidableEq

inductive Timer : Type
  | queryDuration
  | insertDuration
  deriving DecidableEq

/-- An `f64`, as far as `observe` looks at it. -/
inductive Seconds : Type
  | nan
  | negInf
  | finite (value : ℚ)
  | posInf

/-- `BUCKET_BOUNDS`, the doubles nearest to 100µs, 250µs, 500µs, 1ms, 2.5ms, 5ms,
10ms, 25ms, 50ms, 100ms, 250ms, 500ms, 1s, 2.5s, 5s and 10s. -/
def bucketBounds : List ℚ :=
  [7378697629483821 / 2 ^ 66, 1152921504606847 / 2 ^ 62, 1152921504606847 / 2 ^ 61,
    1152921504606847 / 2 ^ 60, 5764607523034235 / 2 ^ 61, 5764607523034235 / 2 ^ 60,
    5764607523034235 / 2 ^ 59, 3602879701896397 / 2 ^ 57, 3602879701896397 / 2 ^ 56,
    3602879701896397 / 2 ^ 55, 1 / 4, 1 / 2, 1, 5 / 2, 5, 10]

/-- A position in the list of bounds. -/
abbrev Bucket : Type := Fin bucketBounds.length

structure LatencyHistogram : Type where
  buckets : Bucket → Nat
  sumMicros : Nat
  count : Nat

/-- The counters of a histogram. -/
inductive Part : Type
  | bucket (i : Bucket)
  | sumMicros
  | count
  deriving DecidableEq

structure Metrics : Type where
  totals : Total → Nat
  namespaceMetrics : HashMap String NamespaceMetrics
  durations : Timer → LatencyHistogram

namespace Metrics

def new : Metrics where
  totals _ := 0
  namespaceMetrics := ∅
  durations _ := ⟨fun _ => 0, 0, 0⟩

/-- `fetch_add` on an `AtomicU64`. -/
def fetchAdd (value amount : Nat) : Nat := (value + amount) % 2 ^ 64

end Metrics

namespace NamespaceCounter

def read (m : NamespaceMetrics) : NamespaceCounter → Nat
  | queriesHit => m.queriesHit
  | queriesMiss => m.queriesMiss
  | inserts => m.inserts
  | evictions => m.evictions
  | expirations => m.expirations
  | deletions => m.deletions
  | invalidations => m.invalidations
  | exactMatchHits => m.exactMatchHits

def bump (m : NamespaceMetrics) : NamespaceCounter → NamespaceMetrics
  | queriesHit => { m with queriesHit := Metrics.fetchAdd m.queriesHit 1 }
  | queriesMiss => { m with queriesMiss := Metrics.fetchAdd m.queriesMiss 1 }
  | inserts => { m with inserts := Metrics.fetchAdd m.inserts 1 }
  | evictions => { m with evictions := Metrics.fetchAdd m.evictions 1 }
  | expirations => { m with expirations := Metrics.fetchAdd m.expirations 1 }
  | deletions => { m with deletions := Metrics.fetchAdd m.deletions 1 }
  | invalidations => { m with invalidations := Metrics.fetchAdd m.invalidations 1 }
  | exactMatchHits => { m with exactMatchHits := Metrics.fetchAdd m.exactMatchHits 1 }

/-- `NamespaceMetrics::default`. -/
def zeros : NamespaceMetrics := ⟨0, 0, 0, 0, 0, 0, 0, 0⟩

theorem read_bump (m : NamespaceMetrics) (c c' : NamespaceCounter) :
    read (bump m c) c' = if c = c' then Metrics.fetchAdd (read m c') 1 else read m c' := by
  cases c <;> cases c' <;> rfl

theorem read_zeros (c : NamespaceCounter) : read zeros c = 0 := by
  cases c <;> rfl

end NamespaceCounter

namespace LatencyHistogram

def read (h : LatencyHistogram) : Part → Nat
  | .bucket i => h.buckets i
  | .sumMicros => h.sumMicros
  | .count => h.count

def add (h : LatencyHistogram) (amount : Nat) : Part → LatencyHistogram
  | .bucket i =>
      { h with buckets := Function.update h.buckets i (Metrics.fetchAdd (h.buckets i) amount) }
  | .sumMicros => { h with sumMicros := Metrics.fetchAdd h.sumMicros amount }
  | .count => { h with count := Metrics.fetchAdd h.count amount }

theorem read_add (h : LatencyHistogram) (amount : Nat) (part part' : Part) :
    read (add h amount part) part' =
      if part = part' then Metrics.fetchAdd (read h part') amount else read h part' := by
  cases part with
  | bucket i =>
      cases part' with
      | bucket j =>
          by_cases same : i = j
          · subst same
            simp [read, add]
          · simp [read, add, same, Function.update_of_ne (Ne.symm same)]
      | _ => rfl
  | _ => cases part' <;> rfl

end LatencyHistogram

/-! ## Atomic steps -/

/-- One atomic step of a `record_*` call.  `look` is the lookup under the read
lock, with the increment if the namespace is there; `create` is the second
attempt, under the write lock. -/
inductive Task : Type
  | total (t : Total)
  | look (ns : String) (c : NamespaceCounter)
  | create (ns : String) (c : NamespaceCounter)
  | timed (timer : Timer) (part : Part) (amount : Nat)

namespace Metrics

/-- `LatencyHistogram::observe`: NaN and negative durations count as zero. -/
def reaches : Seconds → ℚ → Bool
  | .nan, bound => decide (0 ≤ bound)
  | .negInf, bound => decide (0 ≤ bound)
  | .finite value, bound => decide (max value 0 ≤ bound)
  | .posInf, _ => false

/-- The steps of `observe`; `micros` is the duration in rounded microseconds. -/
def observe (timer : Timer) (duration : Seconds) (micros : Nat) : List Task :=
  ((List.finRange bucketBounds.length).filter fun i => reaches duration (bucketBounds.get i)).map
    (fun i => .timed timer (.bucket i) 1) ++
      [.timed timer .sumMicros micros, .timed timer .count 1]

@[simp]
def recordQueryHit (ns : String) (duration : Seconds) (micros : Nat) : List Task :=
  [.total .queriesTotal, .total .queriesHit, .look ns .queriesHit] ++
    observe .queryDuration duration micros

@[simp]
def recordQueryMiss (ns : String) (duration : Seconds) (micros : Nat) : List Task :=
  [.total .queriesTotal, .total .queriesMiss, .look ns .queriesMiss] ++
    observe .queryDuration duration micros

@[simp]
def recordInsert (ns : String) (duration : Seconds) (micros : Nat) : List Task :=
  [.total .insertsTotal, .look ns .inserts] ++ observe .insertDuration duration micros

@[simp]
def recordReplicationForward : List Task := [.total .replicationForwardsTotal]

@[simp]
def recordReplicationFailure : List Task := [.total .replicationFailuresTotal]

@[simp]
def recordReplicationRetry : List Task := [.total .replicationRetriesTotal]

@[simp]
def recordCompaction : List Task := [.total .compactionsTotal]

@[simp]
def recordRingChange : List Task := [.total .ringChangesTotal]

@[simp]
def recordReadRepair : List Task := [.total .readRepairsTotal]

@[simp]
def recordReadRepairFailure : List Task := [.total .readRepairFailuresTotal]

@[simp]
def recordRebuild : List Task := [.total .indexRebuildsTotal]

@[simp]
def recordEviction (ns : String) : List Task := [.total .evictionsTotal, .look ns .evictions]

@[simp]
def recordExpiration (ns : String) : List Task := [.total .expirationsTotal, .look ns .expirations]

@[simp]
def recordDeletion (ns : String) : List Task := [.total .deletionsTotal, .look ns .deletions]

@[simp]
def recordInvalidation (ns : String) : List Task :=
  [.total .invalidationsTotal, .look ns .invalidations]

@[simp]
def recordExactMatchHit (ns : String) : List Task :=
  [.total .exactMatchHitsTotal, .look ns .exactMatchHits]

end Metrics

/-- A call of one of the functions. -/
inductive Recording : Type
  | queryHit (ns : String) (duration : Seconds) (micros : Nat)
  | queryMiss (ns : String) (duration : Seconds) (micros : Nat)
  | insert (ns : String) (duration : Seconds) (micros : Nat)
  | replicationForward
  | replicationFailure
  | replicationRetry
  | compaction
  | ringChange
  | readRepair
  | readRepairFailure
  | rebuild
  | eviction (ns : String)
  | expiration (ns : String)
  | deletion (ns : String)
  | invalidation (ns : String)
  | exactMatchHit (ns : String)

def Recording.tasks : Recording → List Task
  | queryHit ns duration micros => Metrics.recordQueryHit ns duration micros
  | queryMiss ns duration micros => Metrics.recordQueryMiss ns duration micros
  | insert ns duration micros => Metrics.recordInsert ns duration micros
  | replicationForward => Metrics.recordReplicationForward
  | replicationFailure => Metrics.recordReplicationFailure
  | replicationRetry => Metrics.recordReplicationRetry
  | compaction => Metrics.recordCompaction
  | ringChange => Metrics.recordRingChange
  | readRepair => Metrics.recordReadRepair
  | readRepairFailure => Metrics.recordReadRepairFailure
  | rebuild => Metrics.recordRebuild
  | eviction ns => Metrics.recordEviction ns
  | expiration ns => Metrics.recordExpiration ns
  | deletion ns => Metrics.recordDeletion ns
  | invalidation ns => Metrics.recordInvalidation ns
  | exactMatchHit ns => Metrics.recordExactMatchHit ns

inductive Cell : Type
  | total (t : Total)
  | labelled (ns : String) (c : NamespaceCounter)
  | timed (timer : Timer) (part : Part)
  deriving DecidableEq

namespace Metrics

/-- The value that `render` writes.  A namespace without counters has zeros. -/
def value (m : Metrics) : Cell → Nat
  | .total t => m.totals t
  | .labelled ns c => ((m.namespaceMetrics.lookup ns).map (NamespaceCounter.read · c)).getD 0
  | .timed timer part => (m.durations timer).read part

def setNamespace (m : Metrics) (ns : String) (counters : NamespaceMetrics) : Metrics :=
  { m with namespaceMetrics := m.namespaceMetrics.insert ns counters }

def exec (m : Metrics) : Task → Metrics × Option Task
  | .total t => ({ m with totals := Function.update m.totals t (fetchAdd (m.totals t) 1) }, none)
  | .look ns c => match m.namespaceMetrics.lookup ns with
      | some counters => (m.setNamespace ns (c.bump counters), none)
      | none => (m, some (.create ns c))
  | .create ns c =>
      let counters := (m.namespaceMetrics.lookup ns).getD NamespaceCounter.zeros
      (m.setNamespace ns (c.bump counters), none)
  | .timed timer part amount =>
      let h := (m.durations timer).add amount part
      ({ m with durations := Function.update m.durations timer h }, none)

end Metrics

def Task.cell : Task → Cell
  | total t => .total t
  | look ns c => .labelled ns c
  | create ns c => .labelled ns c
  | timed timer part _ => .timed timer part

def Task.amount : Task → Nat
  | timed _ _ amount => amount
  | _ => 1

/-- The counters as cells that tasks add to. -/
def counters : Tally Metrics Task Cell := ⟨Metrics.exec, Metrics.value, Task.cell, Task.amount⟩

namespace Metrics

/-! ## Every step adds once -/

/-- A counter that is not there yet reads like one that starts at zero. -/
theorem value_labelled (m : Metrics) (ns : String) (c : NamespaceCounter) :
    m.value (.labelled ns c) =
      c.read ((m.namespaceMetrics.lookup ns).getD NamespaceCounter.zeros) := by
  change ((m.namespaceMetrics.lookup ns).map (NamespaceCounter.read · c)).getD 0 = _
  cases m.namespaceMetrics.lookup ns with
  | none => exact (NamespaceCounter.read_zeros c).symm
  | some counters => rfl

theorem value_setNamespace (m : Metrics) (ns : String) (c : NamespaceCounter) (k : Cell) :
    (m.setNamespace ns
      (c.bump ((m.namespaceMetrics.lookup ns).getD NamespaceCounter.zeros))).value k =
      if .labelled ns c = k then fetchAdd (m.value k) 1 else m.value k := by
  cases k with
  | labelled ns' c' =>
      rw [value_labelled, value_labelled]
      unfold setNamespace
      dsimp only
      by_cases same : ns = ns'
      · subst same
        rw [Finmap.lookup_insert, Option.getD_some, NamespaceCounter.read_bump]
        simp only [Cell.labelled.injEq, true_and]
      · rw [Finmap.lookup_insert_of_ne _ (Ne.symm same),
          if_neg fun eq => same (Cell.labelled.inj eq).1]
  | _ => rfl

/-- A step that completes adds its amount to its cell, and nothing else. -/
theorem value_exec {m m' : Metrics} {t : Task} (done : m.exec t = (m', none)) (k : Cell) :
    m'.value k = if t.cell = k then fetchAdd (m.value k) t.amount else m.value k := by
  cases t with
  | total t =>
      cases done
      cases k with
      | total t' =>
          by_cases same : t = t'
          · subst same
            simp [value, Task.cell, Task.amount]
          · simp [value, Task.cell, same, Function.update_of_ne (Ne.symm same)]
      | _ => rfl
  | look ns c =>
      unfold exec at done
      dsimp only at done
      cases found : m.namespaceMetrics.lookup ns with
      | none =>
          rw [found] at done
          cases done
      | some counters =>
          rw [found] at done
          cases done
          have inserted := value_setNamespace m ns c k
          rw [found] at inserted
          exact inserted
  | create ns c =>
      cases done
      exact value_setNamespace m ns c k
  | timed timer part amount =>
      cases done
      cases k with
      | timed timer' part' =>
          change (Function.update m.durations timer _ timer').read part' = _
          by_cases same : timer = timer'
          · subst same
            rw [Function.update_self, LatencyHistogram.read_add]
            simp [value, Task.cell, Task.amount]
          · rw [Function.update_of_ne (Ne.symm same)]
            simp [value, Task.cell, same]
      | _ => rfl

theorem adds : Tally.Adds counters (2 ^ 64) where
  done m t m' ran k := by
    change m'.value k ≡ m.value k + (if t.cell = k then t.amount else 0) [MOD 2 ^ 64]
    rw [value_exec ran]
    split
    · exact Nat.mod_modEq _ _
    · rfl
  again m t m' t' ran := by
    change m.exec t = (m', some t') at ran
    cases t with
    | look ns c =>
        unfold exec at ran
        dsimp only at ran
        cases found : m.namespaceMetrics.lookup ns with
        | none =>
            rw [found] at ran
            cases ran
            exact ⟨fun _ => rfl, rfl, rfl⟩
        | some counters =>
            rw [found] at ran
            cases ran
    | _ => cases ran

/-- A counter is a 64-bit word. -/
theorem value_lt_exec {m : Metrics} (bounded : ∀ k, m.value k < 2 ^ 64) (t : Task) (k : Cell) :
    (m.exec t).1.value k < 2 ^ 64 := by
  rcases ran : m.exec t with ⟨m', _ | t'⟩
  · rw [value_exec ran]
    split
    · exact Nat.mod_lt _ (Nat.two_pow_pos 64)
    · exact bounded k
  · have same := (adds.again m t m' t' ran).1 k
    exact same.trans_lt (bounded k)

end Metrics

/-! ## What a call issues -/

/-- The total that a namespace counter is a part of. -/
def NamespaceCounter.total : NamespaceCounter → Total
  | queriesHit => .queriesHit
  | queriesMiss => .queriesMiss
  | inserts => .insertsTotal
  | evictions => .evictionsTotal
  | expirations => .expirationsTotal
  | deletions => .deletionsTotal
  | invalidations => .invalidationsTotal
  | exactMatchHits => .exactMatchHitsTotal

namespace Recording

/-- The namespace counter that a call increments. -/
def label : Recording → Option (String × NamespaceCounter)
  | queryHit ns _ _ => some (ns, .queriesHit)
  | queryMiss ns _ _ => some (ns, .queriesMiss)
  | insert ns _ _ => some (ns, .inserts)
  | eviction ns => some (ns, .evictions)
  | expiration ns => some (ns, .expirations)
  | deletion ns => some (ns, .deletions)
  | invalidation ns => some (ns, .invalidations)
  | exactMatchHit ns => some (ns, .exactMatchHits)
  | _ => none

/-- The duration that a call observes. -/
def observed : Recording → Option (Timer × Seconds)
  | queryHit _ duration _ => some (.queryDuration, duration)
  | queryMiss _ duration _ => some (.queryDuration, duration)
  | insert _ duration _ => some (.insertDuration, duration)
  | _ => none

@[simp]
theorem owed_task (t : Task) (tasks : List Task) (k : Cell) :
    counters.owed (t :: tasks) k = (if t.cell = k then t.amount else 0) + counters.owed tasks k :=
  Tally.owed_cons t tasks k

theorem cell_of_mem_observe {timer : Timer} {duration : Seconds} {micros : Nat} {t : Task}
    (mem : t ∈ Metrics.observe timer duration micros) : ∃ part, t.cell = .timed timer part := by
  rcases List.mem_append.mp mem with bucket | last
  · obtain ⟨i, -, rfl⟩ := List.mem_map.mp bucket
    exact ⟨_, rfl⟩
  · rcases List.mem_pair.mp last with rfl | rfl
    · exact ⟨_, rfl⟩
    · exact ⟨_, rfl⟩

@[simp]
theorem owed_observe_total (timer : Timer) (duration : Seconds) (micros : Nat) (t : Total) :
    counters.owed (Metrics.observe timer duration micros) (.total t) = 0 := by
  refine Tally.owed_eq_zero fun task mem same => ?_
  obtain ⟨part, cell⟩ := cell_of_mem_observe mem
  cases cell.symm.trans same

@[simp]
theorem owed_observe_labelled (timer : Timer) (duration : Seconds) (micros : Nat) (ns : String)
    (c : NamespaceCounter) :
    counters.owed (Metrics.observe timer duration micros) (.labelled ns c) = 0 := by
  refine Tally.owed_eq_zero fun task mem same => ?_
  obtain ⟨part, cell⟩ := cell_of_mem_observe mem
  cases cell.symm.trans same

/-- Of the buckets, each is incremented once. -/
theorem owed_buckets {timer : Timer} {buckets : List Bucket} (once : buckets.Nodup) (k : Cell) :
    counters.owed (buckets.map fun i => .timed timer (.bucket i) 1) k =
      if ∃ i ∈ buckets, .timed timer (.bucket i) = k then 1 else 0 := by
  induction buckets with
  | nil => simp [Tally.owed_nil]
  | cons i buckets ih =>
      obtain ⟨new, rest⟩ := List.nodup_cons.mp once
      rw [List.map_cons, owed_task, ih rest]
      by_cases here : Task.cell (.timed timer (.bucket i) 1) = k
      · have notLater : ¬ ∃ j ∈ buckets, Cell.timed timer (.bucket j) = k := by
          rintro ⟨j, mem, same⟩
          cases here.trans same.symm
          exact new mem
        rw [if_neg notLater, if_pos here, if_pos ⟨i, List.mem_cons_self, here⟩]
        rfl
      · rw [if_neg here, Nat.zero_add]
        refine if_congr ?_ rfl rfl
        constructor
        · rintro ⟨j, mem, same⟩
          exact ⟨j, List.mem_cons_of_mem _ mem, same⟩
        · rintro ⟨j, mem, same⟩
          rcases List.mem_cons.mp mem with rfl | later
          · exact absurd same here
          · exact ⟨j, later, same⟩

@[simp]
theorem owed_observe_count (timer timer' : Timer) (duration : Seconds) (micros : Nat) :
    counters.owed (Metrics.observe timer duration micros) (.timed timer' .count) =
      if timer = timer' then 1 else 0 := by
  unfold Metrics.observe
  rw [Tally.owed_append, owed_buckets ((List.nodup_finRange _).filter _),
    if_neg (by simp), Nat.zero_add, owed_task, owed_task, Tally.owed_nil]
  simp [Task.cell, Task.amount]

@[simp]
theorem owed_observe_bucket (timer timer' : Timer) (duration : Seconds) (micros : Nat)
    (i : Bucket) :
    counters.owed (Metrics.observe timer duration micros) (.timed timer' (.bucket i)) =
      if timer = timer' ∧ Metrics.reaches duration (bucketBounds.get i) = true then 1 else 0 := by
  unfold Metrics.observe
  have last : counters.owed [.timed timer .sumMicros micros, .timed timer .count 1]
      (.timed timer' (.bucket i)) = 0 := by
    simp [owed_task, Tally.owed_nil, Task.cell]
  rw [Tally.owed_append, owed_buckets ((List.nodup_finRange _).filter _), last]
  refine if_congr ?_ rfl rfl
  constructor
  · rintro ⟨j, mem, same⟩
    cases same
    exact ⟨rfl, (List.mem_filter.mp mem).2⟩
  · rintro ⟨rfl, reached⟩
    exact ⟨i, List.mem_filter.mpr ⟨List.mem_finRange i, reached⟩, rfl⟩

theorem owed_labelled (r : Recording) (ns : String) (c : NamespaceCounter) :
    counters.owed r.tasks (.labelled ns c) = if r.label = some (ns, c) then 1 else 0 := by
  cases r with
  | _ => simp [tasks, label, Tally.owed_nil, Task.cell, Task.amount]

theorem owed_total (r : Recording) (c : NamespaceCounter) :
    counters.owed r.tasks (.total c.total) = if r.label.map Prod.snd = some c then 1 else 0 := by
  cases c with
  | _ => cases r with
    | _ => simp [tasks, label, NamespaceCounter.total, Tally.owed_nil, Task.cell, Task.amount]

/-- Every query is a hit or a miss. -/
theorem owed_queries (r : Recording) :
    counters.owed r.tasks (.total .queriesTotal) =
      counters.owed r.tasks (.total .queriesHit) +
        counters.owed r.tasks (.total .queriesMiss) := by
  cases r with
  | _ => simp [tasks, Tally.owed_nil, Task.cell, Task.amount]

/-- Every query and every insert is timed once. -/
theorem owed_count (r : Recording) :
    counters.owed r.tasks (.timed .queryDuration .count) =
        counters.owed r.tasks (.total .queriesTotal) ∧
      counters.owed r.tasks (.timed .insertDuration .count) =
        counters.owed r.tasks (.total .insertsTotal) := by
  cases r with
  | _ => simp [tasks, Tally.owed_nil, Task.cell, Task.amount]

/-- The call observes a duration within the bound of a bucket. -/
def within (timer : Timer) (i : Bucket) (r : Recording) : Bool :=
  r.observed.any fun o => decide (o.1 = timer) && Metrics.reaches o.2 (bucketBounds.get i)

theorem owed_bucket (r : Recording) (timer : Timer) (i : Bucket) :
    counters.owed r.tasks (.timed timer (.bucket i)) = if r.within timer i then 1 else 0 := by
  cases r with
  | _ => simp [tasks, within, observed, Tally.owed_nil, Task.cell]

theorem owed_timer (r : Recording) (timer : Timer) :
    counters.owed r.tasks (.timed timer .count) =
      if r.observed.any fun o => decide (o.1 = timer) then 1 else 0 := by
  cases r with
  | _ => simp [tasks, observed, Tally.owed_nil, Task.cell]

end Recording

/-! ## Runs -/

/-- A thread calls a function, or a pending step takes effect. -/
inductive Activity : Type
  | call (r : Recording)
  | run (i : Nat)

def Activity.move : Activity → Tally.Move Task
  | call r => .call r.tasks
  | run i => .run i

/-- The calls among the activities. -/
def calls (activities : List Activity) : List Recording :=
  activities.filterMap fun
    | .call r => some r
    | .run _ => none

/-- The counters after the activities, with the steps still pending. -/
def recorded (activities : List Activity) : Tally.Pool Metrics Task :=
  counters.steps ⟨Metrics.new, []⟩ (activities.map Activity.move)

theorem issued_moves (activities : List Activity) :
    (activities.map Activity.move).flatMap Tally.Move.issued =
      (calls activities).flatMap Recording.tasks := by
  induction activities with
  | nil => rfl
  | cons activity activities ih =>
      rw [List.map_cons, List.flatMap_cons, ih]
      cases activity with
      | call r => rfl
      | run i => rfl

theorem value_new (k : Cell) : Metrics.new.value k = 0 := by
  cases k with
  | timed timer part => cases part <;> rfl
  | _ => rfl

theorem value_recorded_lt (activities : List Activity) (k : Cell) :
    (recorded activities).memory.value k < 2 ^ 64 := by
  have start : ∀ k, Metrics.new.value k < 2 ^ 64 := by
    intro k
    rw [value_new]
    exact Nat.two_pow_pos 64
  have kept : ∀ (m : Metrics) (t : Task), (∀ k, m.value k < 2 ^ 64) →
      ∀ k, (counters.exec m t).1.value k < 2 ^ 64 := fun m t bounded =>
    Metrics.value_lt_exec bounded t
  exact Tally.memory_steps kept start (activities.map Activity.move) k

/-- Nothing is lost and nothing is counted twice. -/
theorem value_recorded (activities : List Activity) (k : Cell) :
    (recorded activities).memory.value k + counters.owed (recorded activities).pending k ≡
      ((calls activities).map fun r => counters.owed r.tasks k).sum [MOD 2 ^ 64] := by
  have kept := Metrics.adds.steps ⟨Metrics.new, []⟩ (activities.map Activity.move) k
  rw [issued_moves, Tally.owed_flatMap] at kept
  have start : counters.value Metrics.new k + counters.owed [] k = 0 := value_new k
  rw [start, Nat.zero_add] at kept
  exact kept

section Quiet

variable {activities : List Activity} (quiet : (recorded activities).pending = [])

include quiet

/-- Without a call in progress every counter is what was recorded. -/
theorem value_quiet (k : Cell) :
    (recorded activities).memory.value k =
      ((calls activities).map fun r => counters.owed r.tasks k).sum % 2 ^ 64 := by
  have kept := value_recorded activities k
  rw [quiet, Tally.owed_nil, Nat.add_zero] at kept
  rw [← Nat.mod_eq_of_lt (value_recorded_lt activities k)]
  exact kept

theorem value_quiet_modEq (k : Cell) :
    (recorded activities).memory.value k ≡
      ((calls activities).map fun r => counters.owed r.tasks k).sum [MOD 2 ^ 64] := by
  rw [value_quiet quiet]
  exact Nat.mod_modEq _ _

/-- A total is the sum of its namespaces: one that has no counters yet has nothing
to count. -/
theorem total_eq_sum_labelled (c : NamespaceCounter) :
    (recorded activities).memory.totals c.total ≡
      ∑ ns ∈ (recorded activities).memory.namespaceMetrics.keys,
        (recorded activities).memory.value (.labelled ns c) [MOD 2 ^ 64] := by
  have each := fun ns => value_quiet_modEq quiet (.labelled ns c)
  have total := value_quiet_modEq quiet (.total c.total)
  generalize (recorded activities).memory = m at each total ⊢
  -- all namespaces that have counters or were recorded
  let named := m.namespaceMetrics.keys ∪
    ((calls activities).filterMap fun r => r.label.map Prod.fst).toFinset
  have more : ∑ ns ∈ m.namespaceMetrics.keys, m.value (.labelled ns c) =
      ∑ ns ∈ named, m.value (.labelled ns c) := by
    refine Finset.sum_subset Finset.subset_union_left fun ns _ absent => ?_
    have unknown : m.namespaceMetrics.lookup ns = none :=
      Finmap.lookup_eq_none.mpr fun known => absent (Finmap.mem_keys.mpr known)
    change ((m.namespaceMetrics.lookup ns).map (NamespaceCounter.read · c)).getD 0 = 0
    rw [unknown]
    rfl
  have all : ∀ r ∈ calls activities, counters.owed r.tasks (.total c.total) =
      ∑ ns ∈ named, counters.owed r.tasks (.labelled ns c) := by
    intro r mem
    rw [Recording.owed_total]
    simp only [Recording.owed_labelled]
    cases label : r.label with
    | none => simp
    | some pair =>
        have inside : pair.1 ∈ named := by
          refine Finset.mem_union_right _ (List.mem_toFinset.mpr ?_)
          exact List.mem_filterMap.mpr ⟨r, mem, by rw [label]; rfl⟩
        by_cases same : pair.2 = c
        · subst same
          rw [Finset.sum_eq_single pair.1]
          · simp
          · intro ns _ other
            exact if_neg fun eq => other (congrArg Prod.fst (Option.some.inj eq)).symm
          · exact fun outside => absurd inside outside
        · rw [Option.map_some, if_neg fun eq => same (Option.some.inj eq)]
          refine (Finset.sum_eq_zero fun ns _ => ?_).symm
          exact if_neg fun eq => same (congrArg Prod.snd (Option.some.inj eq))
  have exchange : ∀ called : List Recording,
      (called.map fun r => ∑ ns ∈ named, counters.owed r.tasks (.labelled ns c)).sum =
        ∑ ns ∈ named, (called.map fun r => counters.owed r.tasks (.labelled ns c)).sum := by
    intro called
    induction called with
    | nil => simp
    | cons r called ih => simp only [List.map_cons, List.sum_cons, ih, Finset.sum_add_distrib]
  have exchanged : ((calls activities).map fun r => counters.owed r.tasks (.total c.total)).sum =
      ∑ ns ∈ named, ((calls activities).map fun r =>
        counters.owed r.tasks (.labelled ns c)).sum := by
    rw [List.map_congr_left all]
    exact exchange _
  rw [more]
  refine total.trans ?_
  rw [exchanged]
  exact Nat.ModEq.sum fun ns _ => (each ns).symm

end Quiet

/-- What the families of `/metrics` say about each other. -/
structure Coherent (m : Metrics) : Prop where
  queries : m.totals .queriesTotal ≡
    m.totals .queriesHit + m.totals .queriesMiss [MOD 2 ^ 64]
  labelled : ∀ c : NamespaceCounter, m.totals c.total ≡
    ∑ ns ∈ m.namespaceMetrics.keys, m.value (.labelled ns c) [MOD 2 ^ 64]
  timedQueries : (m.durations .queryDuration).count = m.totals .queriesTotal
  timedInserts : (m.durations .insertDuration).count = m.totals .insertsTotal

theorem coherent_of_quiet {activities : List Activity}
    (quiet : (recorded activities).pending = []) : Coherent (recorded activities).memory where
  queries := by
    have total := value_quiet_modEq quiet (.total .queriesTotal)
    have hits := value_quiet_modEq quiet (.total .queriesHit)
    have misses := value_quiet_modEq quiet (.total .queriesMiss)
    have split : ∀ called : List Recording,
        (called.map fun r => counters.owed r.tasks (.total .queriesTotal)).sum =
          (called.map fun r => counters.owed r.tasks (.total .queriesHit)).sum +
            (called.map fun r => counters.owed r.tasks (.total .queriesMiss)).sum := by
      intro called
      simp only [Recording.owed_queries, List.sum_map_add]
    rw [split] at total
    exact total.trans (hits.add misses).symm
  labelled := total_eq_sum_labelled quiet
  timedQueries := by
    have counted := value_quiet quiet (.timed .queryDuration .count)
    simp only [Recording.owed_count] at counted
    exact counted.trans (value_quiet quiet (.total .queriesTotal)).symm
  timedInserts := by
    have counted := value_quiet quiet (.timed .insertDuration .count)
    simp only [Recording.owed_count] at counted
    exact counted.trans (value_quiet quiet (.total .insertsTotal)).symm

/-! ## Buckets -/

theorem pairwise_bucketBounds : bucketBounds.Pairwise (· ≤ ·) := by
  decide +kernel

theorem reaches_mono {duration : Seconds} {bound bound' : ℚ} (le : bound ≤ bound')
    (reached : Metrics.reaches duration bound = true) :
    Metrics.reaches duration bound' = true := by
  cases duration with
  | nan => exact decide_eq_true ((of_decide_eq_true reached).trans le)
  | negInf => exact decide_eq_true ((of_decide_eq_true reached).trans le)
  | finite value => exact decide_eq_true ((of_decide_eq_true reached).trans le)
  | posInf => cases reached

theorem Recording.within_mono {timer : Timer} {i j : Bucket} (le : i ≤ j) {r : Recording}
    (inside : r.within timer i = true) : r.within timer j = true := by
  unfold within at inside ⊢
  rw [Option.any_eq_true] at inside ⊢
  obtain ⟨o, observed, both⟩ := inside
  rw [Bool.and_eq_true] at both
  have bounds : bucketBounds.get i ≤ bucketBounds.get j := by
    rcases Nat.eq_or_lt_of_le le with same | less
    · rw [Fin.ext same]
    · exact List.pairwise_iff_get.mp pairwise_bucketBounds i j less
  exact ⟨o, observed, (Bool.and_eq_true _ _).mpr ⟨both.1, reaches_mono bounds both.2⟩⟩

theorem sum_map_ite (called : List Recording) (p : Recording → Bool) :
    (called.map fun r => if p r then 1 else 0).sum = called.countP p := by
  induction called with
  | nil => rfl
  | cons r called ih =>
      rw [List.map_cons, List.sum_cons, ih, List.countP_cons]
      exact Nat.add_comm _ _

/-- The buckets of a histogram hold what their bounds cover, in increasing order
and below the count. -/
structure Cumulative (called : List Recording) (m : Metrics) : Prop where
  covers : ∀ timer i, (m.durations timer).buckets i = called.countP (Recording.within timer i)
  increasing : ∀ timer i j, i ≤ j →
    (m.durations timer).buckets i ≤ (m.durations timer).buckets j
  belowCount : ∀ timer i, (m.durations timer).buckets i ≤ (m.durations timer).count

theorem cumulative_of_quiet {activities : List Activity}
    (quiet : (recorded activities).pending = []) (few : (calls activities).length < 2 ^ 64) :
    Cumulative (calls activities) (recorded activities).memory := by
  have covers : ∀ timer i, ((recorded activities).memory.durations timer).buckets i =
      (calls activities).countP (Recording.within timer i) := by
    intro timer i
    have counted := value_quiet quiet (.timed timer (.bucket i))
    simp only [Recording.owed_bucket, sum_map_ite] at counted
    rw [Nat.mod_eq_of_lt (List.countP_le_length.trans_lt few)] at counted
    exact counted
  constructor
  case covers => exact covers
  case increasing =>
    intro timer i j le
    rw [covers, covers]
    exact List.countP_mono_left fun r _ inside => Recording.within_mono le inside
  case belowCount =>
    intro timer i
    have counted := value_quiet quiet (.timed timer .count)
    simp only [Recording.owed_timer, sum_map_ite] at counted
    rw [Nat.mod_eq_of_lt (List.countP_le_length.trans_lt few)] at counted
    rw [covers]
    refine le_of_le_of_eq ?_ counted.symm
    refine List.countP_mono_left fun r _ inside => ?_
    unfold Recording.within at inside
    rw [Option.any_eq_true] at inside ⊢
    obtain ⟨o, observed, both⟩ := inside
    rw [Bool.and_eq_true] at both
    exact ⟨o, observed, both.1⟩

/-- Any number of threads, in any interleaving and with their increments in any
order: what a counter shows and what is still pending for it are what was
recorded.  Once no call is in progress, hits and misses are the queries, every
total is the sum of its namespaces, every query and insert is in its histogram,
and the buckets are cumulative while the counters do not wrap. -/
theorem counters_under_interleaving (activities : List Activity) :
    (∀ k, (recorded activities).memory.value k +
        counters.owed (recorded activities).pending k ≡
      ((calls activities).map fun r => counters.owed r.tasks k).sum [MOD 2 ^ 64]) ∧
    ((recorded activities).pending = [] → Coherent (recorded activities).memory ∧
      ((calls activities).length < 2 ^ 64 →
        Cumulative (calls activities) (recorded activities).memory)) :=
  ⟨value_recorded activities, fun quiet => ⟨coherent_of_quiet quiet, cumulative_of_quiet quiet⟩⟩

/-- Two evictions from a namespace without counters, whose lookups both fail
before either of them creates it. -/
def racingEvictions : List Activity :=
  [.call (.eviction "m"), .call (.eviction "m"), .run 1, .run 3, .run 0, .run 0, .run 0, .run 0]

theorem counters_under_interleaving_racing :
    (recorded racingEvictions).memory.value (.labelled "m" .evictions) = 2 ∧
      Coherent (recorded racingEvictions).memory ∧
      Cumulative (calls racingEvictions) (recorded racingEvictions).memory := by
  obtain ⟨coherent, cumulative⟩ := (counters_under_interleaving racingEvictions).2 rfl
  exact ⟨by decide +kernel, coherent, cumulative (by decide)⟩

end Ferrocache
