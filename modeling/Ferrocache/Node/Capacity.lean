import Ferrocache.Index.Survivors
import Ferrocache.Node.Effect

/-!
# How many entries a namespace can hold

The cap is enforced by the flush task only, once per batch and after the batch
was applied, while handlers and the reaper run between any two of its steps.
Whatever they do, a namespace exceeds the cap by at most one batch, and only
from the first applied line of a round to the eviction that ends it.  A node
that recovered more than the cap allows keeps them until its first round.
-/

namespace Ferrocache

namespace SemanticIndex

section Population

variable [Platform] {idx idx' : SemanticIndex} {m : String}

/-- The UUIDs that are live in a namespace. -/
def residents (idx : SemanticIndex) (m : String) : Finset String :=
  (idx.held m).image CacheEntry.uuid

/-- The entries of a namespace, one that does not exist having none. -/
def population (idx : SemanticIndex) (m : String) : Nat := (idx.namespaceMut m).entryCount

theorem WellFormed.mem_residents (wf : idx.WellFormed) {u : String} :
    u ∈ idx.residents m ↔ idx.entryAt m u ≠ none := by
  rw [wf.entryAt_ne_none]
  exact Finset.mem_image

theorem WellFormed.card_residents (wf : idx.WellFormed) :
    (idx.residents m).card = idx.population m := by
  unfold residents population
  rw [Finset.card_image_of_injOn, wf.card_held]
  intro e held f held' same
  have found := wf.mem_held.mp held
  have found' := wf.mem_held.mp held'
  rw [show e.uuid = f.uuid from same, found'] at found
  exact (Option.some.inj found).symm

theorem population_le_of_subset (wf : idx.WellFormed) (wf' : idx'.WellFormed)
    (fewer : ∀ u, idx'.entryAt m u ≠ none → idx.entryAt m u ≠ none) :
    idx'.population m ≤ idx.population m := by
  rw [← wf.card_residents, ← wf'.card_residents]
  refine Finset.card_le_card fun u live => ?_
  exact wf.mem_residents.mpr (fewer u (wf'.mem_residents.mp live))

theorem Loses.population_le (wf : idx.WellFormed) {gone : List (String × String)}
    (lost : Loses idx idx' gone) : idx'.population m ≤ idx.population m := by
  refine population_le_of_subset wf lost.wellFormed fun u live => ?_
  have same := lost.live m u
  split at same
  · exact absurd (Option.map_eq_none_iff.mp same) live
  · rw [ne_eq, ← Option.map_eq_none_iff, ← same, Option.map_eq_none_iff]
    exact live

theorem Inserted.population_le (wf : idx.WellFormed) {home : String} {entry : CacheEntry}
    (inserted : Inserted idx idx' home entry) : idx'.population m ≤ idx.population m + 1 := by
  rw [← wf.card_residents, ← inserted.wellFormed.card_residents]
  have subset : idx'.residents m ⊆ insert entry.uuid (idx.residents m) := by
    intro u live
    rw [inserted.wellFormed.mem_residents, inserted.live] at live
    rw [Finset.mem_insert, wf.mem_residents]
    split at live
    · next hit => exact .inl hit.2
    · exact .inr live
  exact (Finset.card_le_card subset).trans (Finset.card_insert_le _ _)

/-- A line adds at most one entry to a namespace. -/
theorem population_replayEntry (wf : idx.WellFormed) (line : WalEntry) :
    (idx.replayEntry line).1.population m ≤ idx.population m + 1 := by
  cases kind : line.tombstone with
  | true =>
      rw [replayEntry_of_tombstone kind]
      exact ((Loses.removeByUuid_home wf line.uuid).population_le wf).trans (Nat.le_succ _)
  | false =>
      rw [replayEntry_of_insert kind]
      by_cases accepted : NamespacedIndex.Accepts (idx.dimensionOf line.modelId)
          line.cacheEntry.embedding.length
      · exact (insertInto_of_accepts wf accepted).1.population_le wf
      · obtain ⟨msg, rejected⟩ := insertInto_of_not_accepts accepted
        rw [rejected]
        exact Nat.le_succ _

theorem population_evictToCap {order : List String}
    (iter : HashMap.IterOrder idx.namespaces order) (maxEntries : Nat) :
    (idx.evictToCap order maxEntries).1.population m ≤ maxEntries :=
  (largest_evictToCap iter maxEntries m).size.le.trans (min_le_left _ _)

end Population

end SemanticIndex

theorem length_takeBatch (size : Nat) (queue : List Command) :
    (takeBatch size queue).1.length ≤ size := by
  induction size, queue using takeBatch.induct with
  | case1 queue => exact Nat.zero_le _
  | case2 size => exact Nat.zero_le _
  | case3 size queue => exact Nat.zero_le _
  | case4 size entry queue batch compact rest taken ih =>
      rw [taken] at ih
      unfold takeBatch
      rw [taken]
      exact Nat.succ_le_succ ih

namespace Node

section Capacity

variable [Platform] (cfg : NodeConfig)

/-- The lines that the current round may still add to a namespace: a round of
the flush task takes at most this many. -/
def roundSize : Nat := max cfg.batchSize 1

/-- No namespace has more entries between rounds than `most` allows it; inside a
round the lines that are applied already come on top, and those that are not fit. -/
def Bounded (most : String → Nat) (n : Node) : Prop :=
  match n.phase with
  | .collected batch _ => batch.length ≤ roundSize cfg ∧ ∀ m, n.index.population m ≤ most m
  | .written lines _ => lines.length ≤ roundSize cfg ∧ ∀ m, n.index.population m ≤ most m
  | .applying lines _ => ∀ m, n.index.population m + lines.length ≤ most m + roundSize cfg
  | .flushed _ => ∀ m, n.index.population m ≤ most m + roundSize cfg
  | _ => ∀ m, n.index.population m ≤ most m

variable {cfg} {n : Node} {most : String → Nat}

omit [Platform] in
theorem Bounded.le (bounded : Bounded cfg most n) (m : String) :
    n.index.population m ≤ most m + roundSize cfg := by
  unfold Bounded at bounded
  split at bounded
  · exact (bounded.2 m).trans (Nat.le_add_right _ _)
  · exact (bounded.2 m).trans (Nat.le_add_right _ _)
  · exact (Nat.le_add_right _ _).trans (bounded m)
  · exact bounded m
  · exact (bounded m).trans (Nat.le_add_right _ _)

/-- The flush task is applying a batch, or has not evicted after it yet. -/
def filling : Phase → Bool
  | .applying _ _ => true
  | .flushed _ => true
  | _ => false

omit [Platform] in
theorem Bounded.le_of_not_filling (bounded : Bounded cfg most n) (between : filling n.phase = false)
    (m : String) : n.index.population m ≤ most m := by
  unfold Bounded at bounded
  unfold filling at between
  split at bounded
  · exact bounded.2 m
  · exact bounded.2 m
  · next phase => rw [phase] at between; cases between
  · next phase => rw [phase] at between; cases between
  · exact bounded m

omit [Platform] in
/-- Where the phase stays and no namespace grows. -/
theorem Bounded.shrink (bounded : Bounded cfg most n) {n' : Node} (phase : n'.phase = n.phase)
    (fewer : ∀ m, n'.index.population m ≤ n.index.population m) : Bounded cfg most n' := by
  unfold Bounded at bounded ⊢
  rw [phase]
  split at bounded
  · exact ⟨bounded.1, fun m => (fewer m).trans (bounded.2 m)⟩
  · exact ⟨bounded.1, fun m => (fewer m).trans (bounded.2 m)⟩
  · exact fun m => (Nat.add_le_add_right (fewer m) _).trans (bounded m)
  · exact fun m => (fewer m).trans (bounded m)
  · exact fun m => (fewer m).trans (bounded m)

/-- An action other than a crash and the next line adds nothing. -/
theorem act_population_le (wf : n.index.WellFormed) {a : Action} (admissible : n.Admissible cfg a)
    (other : a ≠ .apply) (alive : crashes a = false) (m : String) :
    (n.act cfg a).index.population m ≤ n.index.population m :=
  (act_loses wf admissible other alive).population_le wf

/-- The flush task has no batch. -/
def resting : Phase → Bool
  | .idle => true
  | .evicted _ _ => true
  | .settled _ => true
  | .compacting => true
  | _ => false

omit [Platform] in
theorem Bounded.of_resting (resting : resting n.phase = true)
    (within : ∀ m, n.index.population m ≤ most m) : Bounded cfg most n := by
  unfold Bounded
  unfold Node.resting at resting
  split
  · next phase => rw [phase] at resting; cases resting
  · next phase => rw [phase] at resting; cases resting
  · next phase => rw [phase] at resting; cases resting
  · next phase => rw [phase] at resting; cases resting
  · exact within

/-- Another line is applied: the room it had becomes the entry it added. -/
theorem Bounded.line (bounded : Bounded cfg most n) (wf : n.index.WellFormed) {line : WalEntry}
    {lines : List WalEntry} {compact : Bool} (phase : n.phase = .applying (line :: lines) compact)
    {n' : Node} (taken : n'.index = (n.index.replayEntry line).1)
    (next : n'.phase = .applying lines compact) : Bounded cfg most n' := by
  unfold Bounded at bounded ⊢
  rw [phase] at bounded
  rw [next, taken]
  intro m
  have grown := SemanticIndex.population_replayEntry (m := m) wf line
  have room := bounded m
  rw [List.length_cons] at room
  omega

theorem bounded_evicts (wf : n.index.WellFormed) {maxEntries : Nat}
    (capped : cfg.hnsw.maxEntriesPerNamespace = some maxEntries) {compact : Bool}
    (phase : n.phase = .flushed compact) {order : List String} {rebuildOrder : PassOrder}
    (admissible : n.Admissible cfg (.evict order rebuildOrder)) :
    Bounded cfg (fun _ => maxEntries) (n.act cfg (.evict order rebuildOrder)) := by
  obtain ⟨iter, visits⟩ := admissible _ capped
  have removed := SemanticIndex.Removed.evictToCap wf iter maxEntries
  have rebuilt := SemanticIndex.Loses.rebuildDirtyNamespaces removed.wellFormed visits
  have after : n.act cfg (.evict order rebuildOrder) =
      { n with
        index := ((n.index.evictToCap order maxEntries).1.rebuildDirtyNamespaces rebuildOrder).1
        phase := .evicted (n.index.evictToCap order maxEntries).2 compact
        unlogged := n.unlogged ∪
          ((n.index.evictToCap order maxEntries).2.map (·.uuid)).toFinset } := by
    change n.evict cfg order rebuildOrder = _
    unfold Node.evict
    rw [phase, capped]
  rw [after]
  refine .of_resting rfl fun m => ?_
  have cut := SemanticIndex.population_evictToCap (m := m) iter maxEntries
  exact (rebuilt.population_le removed.wellFormed).trans cut

omit [Platform] in
theorem Bounded.mono {fewer : String → Nat} (bounded : Bounded cfg fewer n)
    (le : ∀ m, fewer m ≤ most m) : Bounded cfg most n := by
  unfold Bounded at bounded ⊢
  split at bounded
  · exact ⟨bounded.1, fun m => (bounded.2 m).trans (le m)⟩
  · exact ⟨bounded.1, fun m => (bounded.2 m).trans (le m)⟩
  · exact fun m => (bounded m).trans (Nat.add_le_add_right (le m) _)
  · exact fun m => (bounded m).trans (Nat.add_le_add_right (le m) _)
  · exact fun m => (bounded m).trans (le m)

/-- One step keeps bounds that are not below the cap. -/
theorem Bounded.act (bounded : Bounded cfg most n) (wf : n.index.WellFormed) {maxEntries : Nat}
    (capped : cfg.hnsw.maxEntriesPerNamespace = some maxEntries) (above : ∀ m, maxEntries ≤ most m)
    {a : Action} (admissible : n.Admissible cfg a) (alive : crashes a = false) :
    Bounded cfg most (n.act cfg a) := by
  have fewer := act_population_le wf admissible (a := a)
  have moves : Moves cfg n a (n.act cfg a) := act_moves a
  have rests : ∀ {n' : Node}, filling n.phase = false → resting n'.phase = true →
      n'.index = n.index → Bounded cfg most n' := by
    intro n' between resting same
    refine .of_resting resting fun m => ?_
    rw [same]
    exact bounded.le_of_not_filling between m
  generalize after : n.act cfg a = n' at moves fewer ⊢
  cases moves with
  | waits => exact bounded
  | collects size idle taken =>
      have short := (length_takeBatch size n.queue).trans admissible.2
      rw [taken] at short
      exact ⟨short, bounded.le_of_not_filling (by rw [idle]; rfl)⟩
  | collectsCompact size idle taken => exact rests (by rw [idle]; rfl) rfl rfl
  | writes outcome phase flushed =>
      have same := (Log.flush_ok flushed).1.same.length_eq
      unfold Bounded at bounded
      rw [phase] at bounded
      exact ⟨same ▸ bounded.1, bounded.2⟩
  | failsWrite outcome phase flushed => exact bounded.le
  | acquires phase =>
      unfold Bounded at bounded
      rw [phase] at bounded
      exact fun m => Nat.add_le_add (bounded.2 m) bounded.1
  | endsLoop phase => exact bounded.le
  | applies phase replayed => exact bounded.line wf phase (by rw [replayed]) rfl
  | rejects phase replayed => exact bounded.line wf phase (by rw [replayed]) rfl
  | keepsAll order rebuildOrder phase uncapped =>
      rw [uncapped] at capped
      cases capped
  | evicts order rebuildOrder phase found =>
      rw [← after]
      exact (bounded_evicts wf capped phase admissible).mono above
  | writesNone outcome phase => exact rests (by rw [phase]; rfl) rfl rfl
  | writesTombstones outcome phase flushed => exact rests (by rw [phase]; rfl) rfl rfl
  | failsTombstones outcome phase flushed => exact rests (by rw [phase]; rfl) rfl rfl
  | @settles order outcome compact phase notDue =>
      cases compact with
      | true => exact rests (by rw [phase]; rfl) rfl rfl
      | false => exact rests (by rw [phase]; rfl) rfl rfl
  | @settlesCompact order outcome compact phase due =>
      cases compact with
      | true => exact rests (by rw [phase]; rfl) rfl rfl
      | false => exact rests (by rw [phase]; rfl) rfl rfl
  | compacts order outcome phase => exact rests (by rw [phase]; rfl) rfl rfl
  | boots => cases alive
  | _ => exact bounded.shrink rfl (fewer (by simp) alive)

/-! ## Runs -/

/-- The actions of a run without a crash. -/
def Alive (_ : Node) (a : Action) : Prop := crashes a = false

instance (n : Node) (a : Action) : Decidable (Alive n a) :=
  inferInstanceAs (Decidable (crashes a = false))

theorem Bounded.run (bounded : Bounded cfg most n) (wf : n.index.WellFormed) {maxEntries : Nat}
    (capped : cfg.hnsw.maxEntriesPerNamespace = some maxEntries) (above : ∀ m, maxEntries ≤ most m)
    {actions : List Action} (allowed : Allowed cfg Alive n actions) :
    Bounded cfg most (n.run cfg actions) := by
  induction actions generalizing n with
  | nil => exact bounded
  | cons a actions ih =>
      obtain ⟨admissible, alive, rest⟩ := allowed
      have next := (act_index wf admissible).wellFormed wf
      exact ih (bounded.act wf capped above admissible alive) next rest

/-- Each namespace has at most the entries that `most` allows it between rounds, and
one batch more inside one. -/
def WithinCap (cfg : NodeConfig) (most : String → Nat) (n : Node) : Prop :=
  ∀ m, n.index.population m ≤ most m + roundSize cfg ∧
    (filling n.phase = false → n.index.population m ≤ most m)

omit [Platform] in
theorem Bounded.withinCap (bounded : Bounded cfg most n) : WithinCap cfg most n :=
  fun m => ⟨bounded.le m, fun between => bounded.le_of_not_filling between m⟩

/-- From any node, however it was reached.  An idle one, which is what a startup
leaves, keeps what it has: no namespace grows beyond the cap or what it had itself.
The eviction of any round brings every namespace down to the cap, and from then on
only the batch in progress comes on top. -/
theorem capacity_of_runs {guard : Node → Action → Prop} (reached : Reachable cfg guard n)
    {maxEntries : Nat} (capped : cfg.hnsw.maxEntriesPerNamespace = some maxEntries) :
    (n.phase = .idle → ∀ actions, Allowed cfg Alive n actions →
      WithinCap cfg (fun m => max maxEntries (n.index.population m)) (n.run cfg actions)) ∧
    ∀ compact, n.phase = .flushed compact → ∀ order rebuildOrder actions,
      Allowed cfg Alive n (.evict order rebuildOrder :: actions) →
        WithinCap cfg (fun _ => maxEntries)
          (n.run cfg (.evict order rebuildOrder :: actions)) := by
  have wf := reached.wellFormed
  constructor
  · intro idle actions allowed
    have bounded : Bounded cfg (fun m => max maxEntries (n.index.population m)) n :=
      .of_resting (by rw [idle]; rfl) fun m => le_max_right ..
    exact (bounded.run wf capped (fun m => le_max_left ..) allowed).withinCap
  · intro compact phase order rebuildOrder actions allowed
    obtain ⟨admissible, -, rest⟩ := allowed
    have bounded := bounded_evicts wf capped phase admissible
    have next := (act_index wf admissible).wellFormed wf
    exact (bounded.run next capped (fun _ => le_rfl) rest).withinCap

end Capacity

section Example

local instance capacityExamplePlatform : Platform := Platform.sample

/-- At most one entry in a namespace, and batches of two. -/
def oneEntry : NodeConfig := ⟨⟨0, some 1⟩, 2, 0⟩

def datedLine (uuid : String) (time : Nat) : WalEntry :=
  ⟨uuid, [1#32], "r", uuid, "a", 0, time, false, none⟩

/-- Two inserts in one batch, up to the eviction. -/
def twoInserts : List Action :=
  [.submit (datedLine "p" 3), .submit (datedLine "q" 9), .collect 2, .write .synced, .acquire,
    .apply, .apply, .apply]

/-- The batch overfills the namespace until the eviction, whose tombstone may be
delayed; a crash before the eviction leaves both entries to the next startup, and a
namespace that was empty then is held to the cap. -/
theorem capacity_of_runs_sample :
    let n := (new oneEntry).run oneEntry twoInserts
    let started := n.act oneEntry (.restart .none ⟨["a"], fun _ => [0, 1]⟩ 10)
    n.index.population "a" = 2 ∧ started.index.population "a" = 2 ∧
      (∀ actions, Allowed oneEntry Alive started actions →
        ((started.run oneEntry actions).index.population "a" ≤ 4 ∧
          (started.run oneEntry actions).index.population "b" ≤ 3)) ∧
      WithinCap oneEntry (fun _ => 1)
        (n.run oneEntry [.evict ["a"] ⟨["a"], fun _ => [1]⟩, .lookupDelete "q"]) := by
  intro n started
  have reached : Reachable oneEntry (fun _ _ => True) n := Reachable.run .new (by decide +kernel)
  have again : Reachable oneEntry (fun _ _ => True) started :=
    reached.act _ (by decide +kernel) trivial
  have held : started.index.population "a" = 2 ∧ started.index.population "b" = 0 := by
    decide +kernel
  refine ⟨by decide +kernel, held.1, fun actions allowed => ?_, ?_⟩
  · have within := (capacity_of_runs again rfl).1 (by decide +kernel) actions allowed
    have a := (within "a").1
    have b := (within "b").1
    dsimp only at a b
    rw [held.1] at a
    rw [held.2] at b
    exact ⟨a, b⟩
  · exact (capacity_of_runs reached rfl).2 false (by decide +kernel) _ _ _ (by decide +kernel)

end Example

end Node

end Ferrocache
