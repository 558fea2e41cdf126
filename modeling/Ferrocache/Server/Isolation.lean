import Ferrocache.Server.Request
import Ferrocache.Index.View

/-!
# Isolation of namespaces

A namespace key is the model id followed by `::scope` and `::conv_id`, joined
without escaping.  Two requests for different tenants (model id and scope) meet
in one namespace exactly when a field of one runs on into the text of the next
field of the other (`RunsInto`).  When no field does, an insert writes none of
the namespaces a query consults, and the query answers as if the insert had not
happened.
-/

namespace Ferrocache

/-! ## Keys as concatenations -/

def scopePart (cacheScope : Option String) : String :=
  match nonBlank cacheScope with
  | some scope => "::" ++ scope
  | none => ""

def convPart (conversationId : Option String) : String :=
  match nonBlank conversationId with
  | some cid => "::conv_" ++ cid
  | none => ""

theorem effectiveNamespace_eq (modelId : String) (cacheScope : Option String) :
    effectiveNamespace modelId cacheScope = modelId ++ scopePart cacheScope := by
  unfold effectiveNamespace scopePart nonBlank
  cases cacheScope with
  | none => simp
  | some scope =>
      cases blank : isBlank scope with
      | true => simp [Option.filter, blank]
      | false => simp [Option.filter, blank, String.append_assoc]

theorem insertNamespace_eq (modelId : String) (cacheScope conversationId : Option String) :
    insertNamespace modelId cacheScope conversationId =
      modelId ++ (scopePart cacheScope ++ convPart conversationId) := by
  unfold insertNamespace convPart
  cases nonBlank conversationId with
  | none => simp [effectiveNamespace_eq]
  | some cid =>
      simp [conversationNamespace, baseNamespace, effectiveNamespace_eq, String.append_assoc]

theorem baseNamespace_eq (modelId : String) (cacheScope : Option String) :
    baseNamespace modelId cacheScope = insertNamespace modelId cacheScope none := rfl

theorem queryConvNamespace_eq (modelId : String) (cacheScope conversationId : Option String) :
    queryConvNamespace modelId cacheScope conversationId =
      if nonBlank conversationId = none then none
      else some (insertNamespace modelId cacheScope conversationId) := by
  unfold queryConvNamespace insertNamespace
  cases nonBlank conversationId with
  | none => rfl
  | some cid => rfl

/-! ## Two readings of one key -/

/-- `head'` is `head` followed by a non-empty beginning of `tail`, and `tail'` is
what is left of `tail`. -/
def RunsInto (head tail head' tail' : String) : Prop :=
  ∃ x, x ≠ "" ∧ head' = head ++ x ∧ tail = x ++ tail'

theorem RunsInto.append_eq {head tail head' tail' : String}
    (runs : RunsInto head tail head' tail') : head ++ tail = head' ++ tail' := by
  obtain ⟨x, -, rfl, rfl⟩ := runs
  rw [String.append_assoc]

theorem RunsInto.ne {head tail head' tail' : String}
    (runs : RunsInto head tail head' tail') : head ≠ head' := by
  obtain ⟨x, nonempty, rfl, rfl⟩ := runs
  intro same
  have chars := congrArg String.toList same
  rw [String.toList_append, List.self_eq_append_right] at chars
  exact nonempty (String.toList_inj.mp chars)

/-- Two concatenations agree exactly when they are cut at the same place or one
head runs on into the other's tail. -/
theorem append_eq_append_iff_runsInto {head tail head' tail' : String} :
    head ++ tail = head' ++ tail' ↔
      (head = head' ∧ tail = tail') ∨ RunsInto head tail head' tail' ∨
        RunsInto head' tail' head tail := by
  constructor
  · intro same
    have chars := congrArg String.toList same
    rw [String.toList_append, String.toList_append, List.append_eq_append_iff] at chars
    rcases chars with ⟨x, longer, rest⟩ | ⟨x, longer, rest⟩
    · by_cases empty : x = []
      · subst empty
        rw [List.append_nil] at longer
        exact Or.inl ⟨(String.toList_inj.mp longer).symm, String.toList_inj.mp rest⟩
      · refine Or.inr (Or.inl ⟨String.ofList x, ?_, ?_, ?_⟩)
        · exact fun none => empty (by simpa using congrArg String.toList none)
        · exact String.toList_inj.mp (by simpa using longer)
        · exact String.toList_inj.mp (by simpa using rest)
    · by_cases empty : x = []
      · subst empty
        rw [List.append_nil] at longer
        exact Or.inl ⟨String.toList_inj.mp longer, (String.toList_inj.mp rest).symm⟩
      · refine Or.inr (Or.inr ⟨String.ofList x, ?_, ?_, ?_⟩)
        · exact fun none => empty (by simpa using congrArg String.toList none)
        · exact String.toList_inj.mp (by simpa using longer)
        · exact String.toList_inj.mp (by simpa using rest)
  · rintro (⟨rfl, rfl⟩ | runs | runs)
    · rfl
    · exact runs.append_eq
    · exact runs.append_eq.symm

/-- A scope is absent, blank, or does not start with the reserved prefix. -/
def ScopeAllowed (cacheScope : Option String) : Prop :=
  ∀ scope, nonBlank cacheScope = some scope → ¬ "conv_".toList <+: scope.toList

/-- A conversation part is empty or starts with the separator and the prefix. -/
theorem convPart_head (conversationId : Option String) :
    (convPart conversationId).toList = [] ∨
      ∃ rest, (convPart conversationId).toList = "::".toList ++ ("conv_".toList ++ rest) := by
  unfold convPart
  cases nonBlank conversationId with
  | none => exact Or.inl rfl
  | some cid => exact Or.inr ⟨cid.toList, by simp⟩

/-- An allowed scope followed by a conversation part never starts like a bare
conversation part. -/
theorem not_conv_prefix {scope : String} (allowed : ¬ "conv_".toList <+: scope.toList)
    (conversationId : Option String) :
    ¬ "conv_".toList <+: scope.toList ++ (convPart conversationId).toList := by
  rintro ⟨rest, same⟩
  rcases List.append_eq_append_iff.mp same with ⟨x, longer, -⟩ | ⟨x, shorter, tail⟩
  · exact allowed ⟨x, longer.symm⟩
  · -- the scope is a beginning of `conv_`, and what follows it starts with a colon
    have colon : x = [] ∨ x.head? = some ':' := by
      rcases convPart_head conversationId with empty | ⟨rest', head⟩
      · rw [empty] at tail
        exact Or.inl (List.append_eq_nil_iff.mp tail.symm).1
      · rw [head] at tail
        cases x with
        | nil => exact Or.inl rfl
        | cons c x =>
            have first := congrArg List.head? tail
            exact Or.inr (by simpa using first.symm)
    rcases colon with empty | colon
    · subst empty
      rw [List.append_nil] at shorter
      exact allowed (shorter ▸ List.prefix_rfl)
    · have member : ':' ∈ "conv_".toList := by
        rw [shorter]
        exact List.mem_append_right _ (List.mem_of_mem_head? colon)
      exact absurd member (by decide)

/-- Under one model id, suffixes with different scopes agree exactly when one
scope runs on into the other request's conversation part. -/
theorem suffix_eq_iff {s s' : Option String} (allowed : ScopeAllowed s)
    (allowed' : ScopeAllowed s') (differ : nonBlank s ≠ nonBlank s') (c c' : Option String) :
    scopePart s ++ convPart c = scopePart s' ++ convPart c' ↔
      ∃ a b, nonBlank s = some a ∧ nonBlank s' = some b ∧
        (RunsInto a (convPart c) b (convPart c') ∨ RunsInto b (convPart c') a (convPart c)) := by
  -- a request without a scope only meets another one without a scope
  have bare : ∀ {b : String} (d d' : Option String), ¬ "conv_".toList <+: b.toList →
      convPart d ≠ "::" ++ b ++ convPart d' := by
    intro b d d' free same
    have chars := congrArg String.toList same
    rw [String.toList_append, String.toList_append, List.append_assoc] at chars
    rcases convPart_head d with empty | ⟨rest, head⟩
    · rw [empty] at chars
      exact absurd (congrArg List.length chars) (by simp)
    · rw [head, List.append_cancel_left_eq] at chars
      exact not_conv_prefix free d' ⟨rest, chars⟩
  unfold ScopeAllowed at allowed allowed'
  unfold scopePart
  cases left : nonBlank s with
  | none =>
      cases right : nonBlank s' with
      | none => exact absurd (left.trans right.symm) differ
      | some b =>
          refine iff_of_false ?_ (by rintro ⟨a, b, none, -⟩; cases none)
          simpa using bare c c' (allowed' b right)
  | some a =>
      cases right : nonBlank s' with
      | none =>
          refine iff_of_false ?_ (by rintro ⟨a, b, -, none, -⟩; cases none)
          intro same
          exact bare c' c (allowed a left) (by simpa using same.symm)
      | some b =>
          have apart : a ≠ b := fun same => differ (by rw [left, right, same])
          simp only [String.append_assoc, String.append_right_inj]
          rw [append_eq_append_iff_runsInto]
          constructor
          · rintro (⟨same, -⟩ | runs)
            · exact absurd same apart
            · exact ⟨a, b, rfl, rfl, runs⟩
          · rintro ⟨a', b', same, same', runs⟩
            cases Option.some.inj same
            cases Option.some.inj same'
            exact Or.inr runs

/-! ## When two tenants meet -/

/-- The fields of a request that choose its namespaces. -/
structure Target : Type where
  modelId : String
  cacheScope : Option String
  conversationId : Option String

namespace Target

/-- Model id and scope, a blank scope counting as absent. -/
def tenant (t : Target) : String × Option String := (t.modelId, nonBlank t.cacheScope)

/-- The namespace an insert with these fields writes. -/
def key (t : Target) : String := insertNamespace t.modelId t.cacheScope t.conversationId

/-- The same request without its conversation. -/
def base (t : Target) : Target := { t with conversationId := none }

/-- The namespaces a query with these fields consults, in order. -/
def consulted (t : Target) : List String :=
  (queryConvNamespace t.modelId t.cacheScope t.conversationId).toList ++
    [baseNamespace t.modelId t.cacheScope]

def suffix (t : Target) : String := scopePart t.cacheScope ++ convPart t.conversationId

/-- A field of one request runs on into the text of the next field of the other:
one model id into the other's suffix, or, under one model id, one scope into
the other's conversation part. -/
def Respells (t t' : Target) : Prop :=
  RunsInto t.modelId t.suffix t'.modelId t'.suffix ∨
    RunsInto t'.modelId t'.suffix t.modelId t.suffix ∨
    (t.modelId = t'.modelId ∧ ∃ a b, nonBlank t.cacheScope = some a ∧
      nonBlank t'.cacheScope = some b ∧
        (RunsInto a (convPart t.conversationId) b (convPart t'.conversationId) ∨
          RunsInto b (convPart t'.conversationId) a (convPart t.conversationId)))

theorem key_eq (t : Target) : t.key = t.modelId ++ t.suffix :=
  insertNamespace_eq _ _ _

theorem Respells.tenant_ne {t t' : Target} (respells : Respells t t') : t.tenant ≠ t'.tenant := by
  intro same
  obtain ⟨model, scope⟩ := Prod.ext_iff.mp same
  rcases respells with runs | runs | ⟨-, a, b, left, right, runs⟩
  · exact runs.ne model
  · exact runs.ne model.symm
  · have equal : a = b := Option.some.inj (left.symm.trans (scope.trans right))
    rcases runs with runs | runs
    · exact runs.ne equal
    · exact runs.ne equal.symm

/-- Requests of different tenants have one key exactly when they respell each
other. -/
theorem key_eq_iff {t t' : Target} (allowed : ScopeAllowed t.cacheScope)
    (allowed' : ScopeAllowed t'.cacheScope) (differ : t.tenant ≠ t'.tenant) :
    t.key = t'.key ↔ Respells t t' := by
  rw [key_eq, key_eq, append_eq_append_iff_runsInto]
  constructor
  · rintro (⟨model, suffix⟩ | runs | runs)
    · have scopes : nonBlank t.cacheScope ≠ nonBlank t'.cacheScope := fun same =>
        differ (Prod.ext model same)
      exact Or.inr (Or.inr ⟨model, (suffix_eq_iff allowed allowed' scopes _ _).mp suffix⟩)
    · exact Or.inl runs
    · exact Or.inr (Or.inl runs)
  · intro respells
    have scopes : t.modelId = t'.modelId → nonBlank t.cacheScope ≠ nonBlank t'.cacheScope :=
      fun model same => differ (Prod.ext model same)
    rcases respells with runs | runs | ⟨model, scope⟩
    · exact Or.inr (Or.inl runs)
    · exact Or.inr (Or.inr runs)
    · exact Or.inl ⟨model, (suffix_eq_iff allowed allowed' (scopes model) _ _).mpr scope⟩

theorem mem_consulted {t : Target} {ns : String} :
    ns ∈ t.consulted ↔ ns = t.key ∨ ns = t.base.key := by
  unfold consulted key base
  rw [queryConvNamespace_eq, baseNamespace_eq]
  by_cases blank : nonBlank t.conversationId = none
  · have same : insertNamespace t.modelId t.cacheScope t.conversationId =
        insertNamespace t.modelId t.cacheScope none := by
      rw [insertNamespace_eq, insertNamespace_eq]
      unfold convPart
      rw [blank]
      rfl
    rw [if_pos blank, same]
    simp
  · rw [if_neg blank]
    simp

/-- A conversation key is never the key of the same tenant without one. -/
theorem key_ne_base {t t' : Target} (same : t.tenant = t'.tenant)
    (conversation : nonBlank t.conversationId ≠ none) : t.key ≠ t'.base.key := by
  obtain ⟨cid, has⟩ := Option.ne_none_iff_exists'.mp conversation
  obtain ⟨model, scope⟩ := Prod.ext_iff.mp same
  intro equal
  have parts : scopePart t.cacheScope = scopePart t'.cacheScope := by
    unfold scopePart
    rw [show nonBlank t.cacheScope = nonBlank t'.cacheScope from scope]
  have model : t.modelId = t'.base.modelId := model
  rw [key_eq, key_eq, model, String.append_right_inj] at equal
  unfold suffix at equal
  have tail : convPart t.conversationId = "" := by
    rw [parts] at equal
    exact (String.append_right_inj _).mp (equal.trans rfl)
  unfold convPart at tail
  rw [has] at tail
  exact absurd (congrArg (fun s => s.toList.length) tail) (by simp)

end Target

/-! ## Noninterference -/

section Noninterference

variable [Platform]

/-- An insertion touches no namespace but its own. -/
theorem SemanticIndex.insertInto_frame (idx : SemanticIndex) {modelId m : String}
    (entry : CacheEntry) (other : m ≠ modelId) :
    (idx.insertInto modelId entry).1.namespaces.lookup m = idx.namespaces.lookup m := by
  unfold SemanticIndex.insertInto
  rcases (idx.namespaceMut modelId).insertWithUuid entry with ⟨ns, _ | _⟩
  · exact Finmap.lookup_insert_of_ne _ other
  · exact Finmap.lookup_insert_of_ne _ other

/-- A local query reads only the namespaces it consults. -/
theorem queryLocally_congr {idx idx' : SemanticIndex} {req : QueryRequest} {modelId : String}
    (same : ∀ ns ∈ (Target.mk modelId req.cacheScope req.conversationId).consulted,
      idx'.namespaces.lookup ns = idx.namespaces.lookup ns) (now : Nat) :
    queryLocally idx' req modelId now = queryLocally idx req modelId now := by
  have base := same _ (List.mem_append_right _ List.mem_cons_self)
  unfold queryLocally
  cases conv : queryConvNamespace modelId req.cacheScope req.conversationId with
  | none =>
      dsimp only
      unfold SemanticIndex.queryWithText
      rw [base]
  | some convNs =>
      have first := same convNs (List.mem_append_left _ (by
        rw [conv]
        exact List.mem_singleton_self convNs))
      dsimp only
      unfold SemanticIndex.queryTwoLevel SemanticIndex.queryTwoLevel.fallback
      rw [base, first]

def InsertRequest.target (req : InsertRequest) (modelId : String) : Target :=
  ⟨modelId, req.cacheScope, req.conversationId⟩

def QueryRequest.target (req : QueryRequest) (modelId : String) : Target :=
  ⟨modelId, req.cacheScope, req.conversationId⟩

/-- An insert for one tenant and a query for another never meet: the query
consults no namespace the insert writes and answers the same before and after
it; and a query without a conversation reads nothing an insert with one wrote. -/
structure Isolated (ins : InsertRequest) (m₁ : String) (qry : QueryRequest) (m₂ : String) :
    Prop where
  apart : (ins.target m₁).tenant ≠ (qry.target m₂).tenant →
    ∀ ns ∈ (qry.target m₂).consulted, ns ≠ (ins.target m₁).key
  unchanged : (ins.target m₁).tenant ≠ (qry.target m₂).tenant →
    ∀ (idx : SemanticIndex) (uuid : String) (insertedAt : Nat) (ttl : Option Nat) (now : Nat),
      queryLocally (idx.replayEntry (ins.walEntry m₁ uuid insertedAt ttl)).1 qry m₂ now =
        queryLocally idx qry m₂ now
  conversation : nonBlank qry.conversationId = none → nonBlank ins.conversationId ≠ none →
    ∀ ns ∈ (qry.target m₂).consulted, ns ≠ (ins.target m₁).key

/-- Isolation holds exactly when neither level of the query respells the insert. -/
theorem isolated_iff_not_respells (ins : InsertRequest) (m₁ : String) (qry : QueryRequest)
    (m₂ : String) (allowed : ScopeAllowed ins.cacheScope)
    (allowed' : ScopeAllowed qry.cacheScope) :
    Isolated ins m₁ qry m₂ ↔
      ¬ (ins.target m₁).Respells (qry.target m₂) ∧
        ¬ (ins.target m₁).Respells (qry.target m₂).base := by
  constructor
  · intro isolated
    constructor
    · intro respells
      have differ := respells.tenant_ne
      have equal := (Target.key_eq_iff allowed allowed' differ).mpr respells
      exact isolated.apart differ _ (Target.mem_consulted.mpr (Or.inl rfl)) equal.symm
    · intro respells
      have differ : (ins.target m₁).tenant ≠ (qry.target m₂).tenant := respells.tenant_ne
      have equal := (Target.key_eq_iff allowed allowed' respells.tenant_ne).mpr respells
      exact isolated.apart differ _ (Target.mem_consulted.mpr (Or.inr rfl)) equal.symm
  · rintro ⟨apart, apartBase⟩
    have disjoint : (ins.target m₁).tenant ≠ (qry.target m₂).tenant →
        ∀ ns ∈ (qry.target m₂).consulted, ns ≠ (ins.target m₁).key := by
      intro differ ns mem equal
      rcases Target.mem_consulted.mp mem with rfl | rfl
      · exact apart ((Target.key_eq_iff allowed allowed' differ).mp equal.symm)
      · have differ : (ins.target m₁).tenant ≠ (qry.target m₂).base.tenant := differ
        exact apartBase ((Target.key_eq_iff allowed allowed' differ).mp equal.symm)
    refine ⟨disjoint, fun differ idx uuid insertedAt ttl now => ?_, fun none has => ?_⟩
    · refine queryLocally_congr (fun ns mem => ?_) now
      rw [SemanticIndex.replayEntry_of_insert rfl]
      exact SemanticIndex.insertInto_frame idx _ (disjoint differ ns mem)
    · by_cases same : (ins.target m₁).tenant = (qry.target m₂).tenant
      · intro ns mem equal
        have base : ns = (qry.target m₂).base.key := by
          rcases Target.mem_consulted.mp mem with key | key
          · rw [key, Target.key_eq, Target.key_eq]
            unfold Target.suffix convPart
            rw [show nonBlank (qry.target m₂).conversationId = _ from none]
            rfl
          · exact key
        exact Target.key_ne_base same has (equal.symm.trans base)
      · exact disjoint same

end Noninterference

/-! ## A scope that spells a model id -/

section Example

local instance : Platform := Platform.sample

/-- An insert of one vector under a scope. -/
def scopedInsert (scope : String) : InsertRequest :=
  ⟨[1#32], "secret", "q", none, none, none, some scope, none⟩

/-- A query for the same vector without a scope. -/
def plainQuery : QueryRequest := ⟨[1#32], 0x3F800000#32, none, none, none, none⟩

theorem scopeAllowed_none : ScopeAllowed none := by
  intro scope present
  cases present

theorem isolated_iff_not_respells_sample :
    Isolated (scopedInsert "tenant") "model" plainQuery "model" := by
  refine (isolated_iff_not_respells _ _ _ _ ?_ scopeAllowed_none).mpr ⟨?_, ?_⟩
  · intro scope present
    have value : "tenant" = scope := Option.some.inj present
    rw [← value]
    decide
  · rintro (runs | runs | ⟨-, a, b, -, none, -⟩)
    · exact runs.ne rfl
    · exact runs.ne rfl
    · cases none
  · rintro (runs | runs | ⟨-, a, b, -, none, -⟩)
    · exact runs.ne rfl
    · exact runs.ne rfl
    · cases none

/-- Model `minilm` under scope `384` and model `minilm::384` without a scope are
two tenants with one namespace: the query of the second reads the insert of the
first. -/
theorem scoped_model_not_isolated :
    ((scopedInsert "384").target "minilm").tenant ≠ (plainQuery.target "minilm::384").tenant ∧
      ¬ Isolated (scopedInsert "384") "minilm" plainQuery "minilm::384" := by
  have differ : ((scopedInsert "384").target "minilm").tenant ≠
      (plainQuery.target "minilm::384").tenant := by decide
  refine ⟨differ, fun isolated => ?_⟩
  have same := isolated.unchanged differ (.new ⟨1, none⟩) "u" 0 none 0
  have before : (queryLocally (.new ⟨1, none⟩) plainQuery "minilm::384" 0).1.toOption =
      some none := by decide +kernel
  rw [← same] at before
  exact absurd before (by decide +kernel)

end Example

end Ferrocache
