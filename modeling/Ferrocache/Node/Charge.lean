import Ferrocache.Index.Ids
import Ferrocache.Node.Effect

/-!
# Hits and their bookkeeping

`process_query_locally` finds a hit under the read lock and charges it later,
under the write lock and by internal id.  Between the two, every other task of
the node may run.  As long as none of them rebuilds the namespace of the hit,
the id still stands for the entry that was returned, or for none once it is
gone.
-/

namespace Ferrocache

/-- A hit that is not charged yet.  `removed` is not in the code: the namespace
was without the entry in some state since the lookup. -/
structure PendingHit : Type where
  modelId : String
  internalId : Nat
  uuid : String
  removed : Bool
  deriving DecidableEq

/-- A node with the queries between lookup and bookkeeping. -/
structure Serving : Type where
  node : Node
  hits : List PendingHit

inductive ServeEvent : Type
  | lookup (req : QueryRequest) (modelId : String) (now : Nat)
  | charge (i now : Nat)
  | node (a : Action)

section Machine

variable [Platform] (cfg : NodeConfig)

/-- The action rebuilds the namespace. -/
def Node.rebuilds (n : Node) (m : String) : Action → Bool
  | .reap expireOrder now _ _ =>
      ((n.index.collectExpired expireOrder now).1.namespaces.lookup m).any (·.needsRebuild)
  | .evict order _ => match n.phase, cfg.hnsw.maxEntriesPerNamespace with
      | .flushed _, some maxEntries =>
          ((n.index.evictToCap order maxEntries).1.namespaces.lookup m).any (·.needsRebuild)
      | _, _ => false
  | _ => false

omit [Platform] in
/-- The hit after a step that leaves this index. -/
def PendingHit.mark (index : SemanticIndex) (hit : PendingHit) : PendingHit :=
  { hit with removed := hit.removed || (index.entryAt hit.modelId hit.uuid).isNone }

namespace Serving

variable (s : Serving)

/-- The first half of `process_query_locally`. -/
def lookup (req : QueryRequest) (modelId : String) (now : Nat) : Serving :=
  match queryLocally s.node.index req modelId now with
  | (.ok (some hit), ns, _) =>
    { s with hits := s.hits ++ [⟨ns, hit.internalId, hit.id, false⟩] }
  | _ => s

/-- The second half: the bookkeeping of one hit. -/
def charge (i now : Nat) : Serving :=
  match s.hits[i]? with
  | none => s
  | some hit =>
    { node := s.node.act cfg (.access hit.modelId hit.internalId now)
      hits := s.hits.eraseIdx i }

/-- A step of another task; a crash ends the queries. -/
def other (a : Action) : Serving :=
  let node := s.node.act cfg a
  { node := node
    hits := if Node.crashes a then [] else s.hits.map (PendingHit.mark node.index) }

def step : ServeEvent → Serving
  | .lookup req modelId now => s.lookup req modelId now
  | .charge i now => s.charge cfg i now
  | .node a => s.other cfg a

/-- A query needs the index lock; bookkeeping happens only through `charge`. -/
def Admissible : ServeEvent → Prop
  | .lookup _ _ _ => s.node.phase.locked = false
  | .charge _ _ => s.node.phase.locked = false
  | .node a => s.node.Admissible cfg a ∧ ∀ m i now, a ≠ .access m i now

/-- No step rebuilds the namespace of a hit that is not charged yet. -/
def Unrenumbered (s : Serving) : ServeEvent → Prop
  | .node a => ∀ hit ∈ s.hits, s.node.rebuilds cfg hit.modelId a = false
  | _ => True

inductive Reachable (guard : Serving → ServeEvent → Prop) : Serving → Prop
  | new : Reachable guard ⟨.new cfg, []⟩
  | step {s : Serving} (e : ServeEvent) : Reachable guard s → s.Admissible cfg e → guard s e →
    Reachable guard (s.step cfg e)

/-- The state after a list of events. -/
def run (events : List ServeEvent) : Serving := events.foldl (step cfg) s

/-- Every event of the list can happen and meets `guard` when its turn comes. -/
def Allowed (guard : Serving → ServeEvent → Prop) (s : Serving) : List ServeEvent → Prop
  | [] => True
  | e :: events => s.Admissible cfg e ∧ guard s e ∧ Allowed guard (s.step cfg e) events

variable {cfg s}

theorem Reachable.run {guard : Serving → ServeEvent → Prop} (reached : Reachable cfg guard s)
    {events : List ServeEvent} (allowed : Allowed cfg guard s events) :
    Reachable cfg guard (s.run cfg events) := by
  induction events generalizing s with
  | nil => exact reached
  | cons e events ih =>
      obtain ⟨admissible, guarded, rest⟩ := allowed
      exact ih (reached.step e admissible guarded) rest

end Serving

end Machine

/-! ## Ids along a run -/

namespace Node

variable [Platform] {cfg : NodeConfig} {n : Node}

/-- No action but a rebuild or a crash gives an id a second meaning. -/
theorem act_keepsIds (wf : n.index.WellFormed) {a : Action} (admissible : n.Admissible cfg a)
    (alive : crashes a = false) {m : String} (clean : n.rebuilds cfg m a = false)
    {ns : NamespacedIndex} (known : n.index.namespaces.lookup m = some ns)
    (issued : 0 < ns.nextId) :
    ∃ ns', (n.act cfg a).index.namespaces.lookup m = some ns' ∧
      NamespacedIndex.KeepsIds ns ns' := by
  have same : ∀ {index : SemanticIndex}, index = n.index →
      ∃ ns', index.namespaces.lookup m = some ns' ∧ NamespacedIndex.KeepsIds ns ns' := by
    intro index eq
    rw [eq]
    exact ⟨ns, known, .inl (.refl ns)⟩
  have retires : ∀ {index : SemanticIndex}, (∃ ns', index.namespaces.lookup m = some ns' ∧
      NamespacedIndex.Retires ns ns') →
      ∃ ns', index.namespaces.lookup m = some ns' ∧ NamespacedIndex.KeepsIds ns ns' := by
    intro index retired
    obtain ⟨ns', found, fewer⟩ := retired
    exact ⟨ns', found, .inl fewer⟩
  have moves : Moves cfg n a (n.act cfg a) := act_moves a
  generalize n.act cfg a = after at moves ⊢
  cases moves with
  | deletes i found => exact retires (SemanticIndex.lookup_removeByUuid known _)
  | invalidates order embedding threshold modelId now =>
      exact retires (SemanticIndex.lookup_invalidateSimilar known order embedding threshold modelId
        now)
  | reaps expireOrder now rebuildOrder pruneOrder =>
      obtain ⟨-, expires, visits, -⟩ := admissible
      obtain ⟨ns', expired, fewer⟩ := SemanticIndex.lookup_collectExpired known expires.1 now
      have wf' : ns'.WellFormed :=
        (SemanticIndex.Removed.collectExpired wf expires.1 now).wellFormed m ns' expired
      have tidy : ns'.needsRebuild = false := by
        unfold rebuilds at clean
        dsimp only at clean
        rw [expired] at clean
        exact clean
      have rebuilt := SemanticIndex.lookup_rebuildDirtyNamespaces expired tidy visits.1
      have issued' : 0 < ns'.nextId := by
        rw [fewer.1]
        exact issued
      exact ⟨ns', SemanticIndex.lookup_pruneEmptyNamespaces rebuilt wf' issued' pruneOrder,
        .inl fewer⟩
  | accesses modelId internalId now =>
      obtain ⟨ns', found, next, names⟩ :=
        SemanticIndex.lookup_recordAccess known modelId internalId now
      exact ⟨ns', found, .inl ⟨next, fun i => .inl (names i)⟩⟩
  | @applies line lines compact index phase replayed =>
      have kept := SemanticIndex.lookup_replayEntry known line
      rw [replayed] at kept
      exact kept
  | @rejects line lines compact index msg phase replayed =>
      have kept := SemanticIndex.lookup_replayEntry known line
      rw [replayed] at kept
      exact kept
  | @evicts order rebuildOrder compact maxEntries phase capped =>
      obtain ⟨iter, visits⟩ := admissible maxEntries capped
      obtain ⟨ns', evicted, fewer⟩ := SemanticIndex.lookup_evictToCap known iter maxEntries
      have tidy : ns'.needsRebuild = false := by
        unfold rebuilds at clean
        rw [phase, capped] at clean
        dsimp only at clean
        rw [evicted] at clean
        exact clean
      exact ⟨ns', SemanticIndex.lookup_rebuildDirtyNamespaces evicted tidy visits.1, .inl fewer⟩
  | boots => cases alive
  | _ => exact same rfl

end Node

namespace PendingHit

/-- The id of the hit was handed out, and stands for the entry that was returned
or, once that entry was removed, for none. -/
def Tracks (hit : PendingHit) (index : SemanticIndex) : Prop :=
  ∃ ns, index.namespaces.lookup hit.modelId = some ns ∧ hit.internalId < ns.nextId ∧
    ns.nameAt hit.internalId = if hit.removed then none else some hit.uuid

variable {hit : PendingHit} {index index' : SemanticIndex}

theorem Tracks.nameAt (tracks : hit.Tracks index) :
    index.nameAt hit.modelId hit.internalId = if hit.removed then none else some hit.uuid := by
  obtain ⟨ns, known, -, named⟩ := tracks
  rw [SemanticIndex.nameAt_of_lookup known]
  exact named

theorem Tracks.recordAccess [Platform] (tracks : hit.Tracks index) (modelId : String)
    (internalId now : Nat) : hit.Tracks (index.recordAccess modelId internalId now) := by
  obtain ⟨ns, known, issued, named⟩ := tracks
  obtain ⟨ns', known', next, names⟩ :=
    SemanticIndex.lookup_recordAccess known modelId internalId now
  refine ⟨ns', known', ?_, (names _).trans named⟩
  rw [next]
  exact issued

/-- A step that keeps ids keeps track of the entry. -/
theorem Tracks.mark [Platform] (tracks : hit.Tracks index) (wf : index.WellFormed)
    (wf' : index'.WellFormed)
    (keeps : ∀ ns, index.namespaces.lookup hit.modelId = some ns → 0 < ns.nextId →
      ∃ ns', index'.namespaces.lookup hit.modelId = some ns' ∧
        NamespacedIndex.KeepsIds ns ns') : (hit.mark index').Tracks index' := by
  obtain ⟨ns, known, issued, named⟩ := tracks
  obtain ⟨ns', known', kept⟩ := keeps ns known (Nat.zero_lt_of_lt issued)
  have view : index'.entryAt hit.modelId hit.uuid = ns'.getByUuid hit.uuid :=
    SemanticIndex.entryAt_of_lookup known' hit.uuid
  have issued' : hit.internalId < ns'.nextId := by
    rcases kept with retires | extends'
    · rw [retires.1]
      exact issued
    · exact Nat.lt_of_lt_of_le issued extends'.1
  have moved : ns'.nameAt hit.internalId = ns.nameAt hit.internalId ∨
      NamespacedIndex.Retires ns ns' ∧ ns'.nameAt hit.internalId = none := by
    rcases kept with retires | extends'
    · exact (retires.2 hit.internalId).imp_right fun gone => ⟨retires, gone⟩
    · exact .inl (extends'.2 hit.internalId issued)
  refine ⟨ns', known', issued', ?_⟩
  unfold PendingHit.mark
  dsimp only
  rw [view]
  cases removed : hit.removed with
  | true =>
      rw [removed] at named
      rcases moved with same | ⟨-, gone⟩
      · exact same.trans named
      · exact gone
  | false =>
      rw [removed] at named
      rcases moved with same | ⟨retires, gone⟩
      · -- the id still stands for the entry, so that it is there
        have here : ns'.nameAt hit.internalId = some hit.uuid := same.trans named
        obtain ⟨entry, found, uuid⟩ := Option.map_eq_some_iff.mp here
        have live : ns'.getByUuid hit.uuid = some entry :=
          (wf' _ _ known').getByUuid_eq_some.mpr ⟨uuid, _, found⟩
        rw [live]
        exact here
      · have lost := retires.gone (wf _ _ known) (wf' _ _ known') named gone
        rw [lost]
        exact gone

end PendingHit

namespace Serving

variable [Platform] {cfg : NodeConfig} {s : Serving}

theorem Reachable.toNode {guard : Serving → ServeEvent → Prop} (reached : Reachable cfg guard s) :
    s.node.Reachable cfg fun _ _ => True := by
  induction reached with
  | new => exact .new
  | @step s e _ admissible _ ih =>
      cases e with
      | lookup req modelId now =>
          change ((s.lookup req modelId now).node).Reachable cfg _
          unfold Serving.lookup
          split
          · exact ih
          · exact ih
      | charge i now =>
          change ((s.charge cfg i now).node).Reachable cfg _
          unfold Serving.charge
          split
          · exact ih
          · next hit _ =>
              exact ih.act (.access hit.modelId hit.internalId now) admissible trivial
      | node a => exact ih.act a admissible.1 trivial

/-- Every hit keeps track of its entry. -/
theorem Reachable.tracks (reached : Reachable cfg (Unrenumbered cfg) s) :
    ∀ hit ∈ s.hits, hit.Tracks s.node.index := by
  induction reached with
  | new => exact fun _ mem => absurd mem List.not_mem_nil
  | @step s e before admissible guarded ih =>
      have wf := before.toNode.wellFormed
      cases e with
      | lookup req modelId now =>
          change ∀ hit ∈ (s.lookup req modelId now).hits,
            hit.Tracks (s.lookup req modelId now).node.index
          unfold Serving.lookup
          split
          · next found ns scope answer =>
              intro hit mem
              rcases List.mem_append.mp mem with old | new
              · exact ih hit old
              · rw [List.mem_singleton.mp new]
                have named := nameAt_of_queryLocally answer
                obtain ⟨inner, known, here⟩ := Option.bind_eq_some_iff.mp named
                obtain ⟨entry, stored, -⟩ := Option.map_eq_some_iff.mp here
                exact ⟨inner, known, (wf ns inner known).lt_nextId stored, here⟩
          · exact ih
      | charge i now =>
          change ∀ hit ∈ (s.charge cfg i now).hits, hit.Tracks (s.charge cfg i now).node.index
          unfold Serving.charge
          split
          · exact ih
          · intro hit mem
            exact (ih hit (List.mem_of_mem_eraseIdx mem)).recordAccess _ _ now
      | node a =>
          have wf' := (before.toNode.act a admissible.1 trivial).wellFormed
          intro hit mem
          change hit ∈ (if Node.crashes a then [] else
            s.hits.map (PendingHit.mark (s.node.act cfg a).index)) at mem
          cases alive : Node.crashes a with
          | true =>
              rw [alive] at mem
              cases mem
          | false =>
              rw [alive] at mem
              obtain ⟨old, waits, rfl⟩ := List.mem_map.mp mem
              exact (ih old waits).mark wf wf' fun ns known issued =>
                Node.act_keepsIds wf admissible.1 alive (guarded old waits) known issued

/-- The bookkeeping of a hit goes to the entry that was returned, to none if that
entry was removed since the lookup, and to no other. -/
def ChargesReturned (cfg : NodeConfig) (s : Serving) (i now : Nat) : Prop :=
  ∀ hit, s.hits[i]? = some hit →
    (hit.removed = false → s.node.index.entryAt hit.modelId hit.uuid ≠ none) ∧
    ∀ m u, (s.charge cfg i now).node.index.entryAt m u =
      if hit.removed = false ∧ m = hit.modelId ∧ u = hit.uuid then
        (s.node.index.entryAt m u).map (·.accessed now)
      else s.node.index.entryAt m u

/-- A hit is charged to the entry that was returned, as long as nothing rebuilds
its namespace before the bookkeeping. -/
theorem charged_to_returned (reached : Reachable cfg (Unrenumbered cfg) s) (i now : Nat) :
    s.ChargesReturned cfg i now := by
  intro hit pending
  have wf := reached.toNode.wellFormed
  have tracks := reached.tracks hit (List.mem_of_getElem? pending)
  have named := tracks.nameAt
  have charged : (s.charge cfg i now).node.index =
      s.node.index.recordAccess hit.modelId hit.internalId now := by
    unfold Serving.charge
    rw [pending]
    rfl
  refine ⟨fun kept => ?_, fun m u => ?_⟩
  · obtain ⟨ns, known, -, here⟩ := tracks
    rw [kept] at here
    obtain ⟨entry, stored, uuid⟩ := Option.map_eq_some_iff.mp here
    rw [SemanticIndex.entryAt_of_lookup known,
      (wf _ _ known).getByUuid_eq_some.mpr ⟨uuid, _, stored⟩]
    exact Option.some_ne_none entry
  · rw [charged, SemanticIndex.entryAt_recordAccess wf, named]
    cases hit.removed with
    | true => simp
    | false => simp [eq_comm]

end Serving

section Example

namespace Serving

local instance chargeExamplePlatform : Platform := Platform.sample

def shortLived (uuid : String) (bits : F32) (expiresAt : Option Nat) : WalEntry :=
  ⟨uuid, [bits], "r", uuid, "m", 0, 0, false, expiresAt⟩

/-- Three entries are stored, under the ids 0, 1 and 2; the first expires soon. -/
def threeStored : List ServeEvent :=
  [.node (.submit (shortLived "a" 1#32 (some 1))), .node (.submit (shortLived "b" 2#32 none)),
    .node (.submit (shortLived "c" 3#32 none)), .node (.collect 3), .node (.write .synced),
    .node .acquire, .node .apply, .node .apply, .node .apply, .node .apply]

/-- A query for the text of the second entry. -/
def queryB : ServeEvent := .lookup ⟨[2#32], 0#32, some "m", some "b", none, none⟩ "m" 0

theorem allowed_threeStored {guard : Serving → ServeEvent → Prop}
    (free : ∀ s : Serving, s.hits = [] → ∀ a, guard s (.node a)) {events : List ServeEvent}
    (rest : Allowed ⟨⟨0, none⟩, 256, 0⟩ guard
      (run ⟨⟨0, none⟩, 256, 0⟩ ⟨.new ⟨⟨0, none⟩, 256, 0⟩, []⟩ threeStored) events) :
    Allowed ⟨⟨0, none⟩, 256, 0⟩ guard ⟨.new ⟨⟨0, none⟩, 256, 0⟩, []⟩ (threeStored ++ events) := by
  refine ⟨⟨rfl, fun _ _ _ => by simp⟩, free _ rfl _, ⟨rfl, fun _ _ _ => by simp⟩, free _ rfl _,
    ⟨rfl, fun _ _ _ => by simp⟩, free _ rfl _, ⟨⟨by decide, by decide⟩, fun _ _ _ => by simp⟩,
    free _ rfl _, ⟨trivial, fun _ _ _ => by simp⟩, free _ rfl _,
    ⟨trivial, fun _ _ _ => by simp⟩, free _ rfl _, ⟨trivial, fun _ _ _ => by simp⟩, free _ rfl _,
    ⟨trivial, fun _ _ _ => by simp⟩, free _ rfl _, ⟨trivial, fun _ _ _ => by simp⟩, free _ rfl _,
    ⟨trivial, fun _ _ _ => by simp⟩, free _ rfl _, rest⟩

/-- The hit on the second entry, charged after the first entry was deleted. -/
theorem charged_to_returned_afterDelete :
    let cfg : NodeConfig := ⟨⟨0, none⟩, 256, 0⟩
    let s := run cfg ⟨.new cfg, []⟩
      (threeStored ++ [queryB, .node (.lookupDelete "a"), .node (.removeDelete 0)])
    s.hits = [⟨"m", 1, "b", false⟩] ∧ s.node.index.entryAt "m" "a" = none ∧
      s.ChargesReturned cfg 0 6 := by
  refine ⟨by decide +kernel, by decide +kernel, charged_to_returned (Reachable.run .new ?_) 0 6⟩
  refine allowed_threeStored (fun s none a => ?_) ?_
  · intro hit mem
    rw [none] at mem
    cases mem
  · refine ⟨?_, trivial, ⟨?_, fun _ _ _ => by simp⟩, fun _ _ => rfl,
      ⟨?_, fun _ _ _ => by simp⟩, fun _ _ => rfl, trivial⟩
    · change Phase.locked _ = false
      decide +kernel
    · change Phase.locked _ = false
      decide +kernel
    · change Phase.locked _ = false
      decide +kernel

/-- The reaper drops the first entry and rebuilds between the lookup and the
bookkeeping, and the hit on the second entry is charged to the third. -/
theorem charged_to_another :
    let cfg : NodeConfig := ⟨⟨0, none⟩, 256, 0⟩
    let s := run cfg ⟨.new cfg, []⟩ (threeStored ++ [queryB,
      .node (.reap ⟨["m"], fun _ => [0, 1, 2]⟩ 5 ⟨["m"], fun _ => [1, 2]⟩ ["m"])])
    Reachable cfg (fun _ _ => True) s ∧ s.node.phase.locked = false ∧
      s.hits = [⟨"m", 1, "b", false⟩] ∧
      ((s.charge cfg 0 6).node.index.entryAt "m" "c").map (·.accessCount) = some 1 ∧
      ¬ s.ChargesReturned cfg 0 6 := by
  have charged : ((run ⟨⟨0, none⟩, 256, 0⟩ ⟨.new ⟨⟨0, none⟩, 256, 0⟩, []⟩ (threeStored ++ [queryB,
      .node (.reap ⟨["m"], fun _ => [0, 1, 2]⟩ 5 ⟨["m"], fun _ => [1, 2]⟩ ["m"]),
      .charge 0 6])).node.index.entryAt "m" "c").map (·.accessCount) = some 1 := by
    decide +kernel
  refine ⟨Reachable.run .new ?_, by decide +kernel, by decide +kernel, charged, ?_⟩
  · refine allowed_threeStored (fun _ _ _ => trivial) ⟨?_, trivial, ⟨⟨?_, ?_, ?_, ?_⟩, ?_⟩, trivial,
      trivial⟩
    · change Phase.locked _ = false
      decide +kernel
    · decide +kernel
    · decide +kernel
    · decide +kernel
    · decide +kernel
    · exact fun _ _ _ => by simp
  · intro returned
    obtain ⟨-, others⟩ := returned ⟨"m", 1, "b", false⟩ (by decide +kernel)
    have untouched := others "m" "c"
    rw [if_neg (by decide)] at untouched
    have before : ((run ⟨⟨0, none⟩, 256, 0⟩ ⟨.new ⟨⟨0, none⟩, 256, 0⟩, []⟩ (threeStored ++ [queryB,
        .node (.reap ⟨["m"], fun _ => [0, 1, 2]⟩ 5 ⟨["m"], fun _ => [1, 2]⟩ ["m"])]
        )).node.index.entryAt "m" "c").map (·.accessCount) = some 0 := by
      decide +kernel
    have both := congrArg (Option.map (·.accessCount)) untouched
    rw [before] at both
    exact absurd (charged.symm.trans both) (by decide)

end Serving

end Example

end Ferrocache
