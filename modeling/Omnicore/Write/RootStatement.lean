import Omnicore.Write.BaseLifecycle

/-!
# The root statement and its event

A verb with a body writes its root row with one statement and tells the row in one event.  The two
are assembled side by side: the statement from the columns of the entity, the columns bound to the
instant of the operation and the plan the requested stamps resolve into; the payload from the same
columns, what the plan knows it wrote, and the managed timestamps of the verb.

## Main definitions

* `StampedSchema` : a schema with stamped fields, whose values the framework writes on request.
* `claimStampRequests`, `splitStamps` : from the requests of a write to the columns of its plan.
* `rootWrite` : the statement and the payload of a verb.

## Main results

* `ownStamps_iff_renewed` : an instance keeps the requests of its writes.
* `rootWrite_complete_iff` : when the payload tells every column the statement binds.
-/

namespace Omnicore.Core

/-- What a write asks of a stamped field. -/
inductive StampOp where
  /-- The instant of the operation for a time, the stored value plus one for a counter. -/
  | fill
  | toNull
  /-- The zero of the field's type. -/
  | toEmpty
  deriving DecidableEq, Repr

/-- A stamped time, or a stamped counter. -/
structure StampedField where
  goName : String
  column : String
  counter : Bool := false
  /-- A counter declared nullable. -/
  nullableCounter : Bool := false
  deriving DecidableEq, Repr

/-- A stamped time can always hold an absence, a counter only where it is declared nullable. -/
def StampedField.acceptsNull (f : StampedField) : Bool := !f.counter || f.nullableCounter

/-- A schema with stamped fields, each under a column of its own. -/
structure StampedSchema extends TableSchema where
  stamped : List StampedField := []
  /-- The columns of the plain fields by Go name. -/
  plainNames : AssocMap String String := []
  stamped_columns_nodup : (stamped.map StampedField.column).Nodup
  stamped_not_key : ∀ f ∈ stamped, f.column ∉ toSchemaDecl.documentKeys
  stamped_not_revision : ∀ f ∈ stamped, f.column ≠ revisionColumn

/-- A request the schema has resolved. -/
structure ClaimedStamp where
  column : String
  op : StampOp
  counter : Bool
  deriving DecidableEq, Repr

/-- The value a claim writes, where it is known before the statement runs. -/
def ClaimedStamp.known (c : ClaimedStamp) (now : Instant) : Option Value :=
  match c.op, c.counter with
  | .toNull, _ => some .null
  | .toEmpty, true => some (.int 0)
  | .toEmpty, false => some (.time 0)
  | .fill, true => none
  | .fill, false => some (.time now)

/-- The requests a schema declares as claims, in declaration order. -/
def StampedSchema.claims (s : StampedSchema) (reqs : AssocMap String StampOp) : List ClaimedStamp :=
  s.stamped.filterMap fun f => (reqs.get f.goName).map fun op =>
    { column := f.column, op, counter := f.counter }

end Omnicore.Core

namespace Omnicore.Write

open Omnicore.Core Domain List AssocMap Except SchemaDecl

/-! ### Claiming the requested stamps -/

/-- Claim one request; an absence needs a field that can hold it. -/
def claimStamp (table : String) (f : StampedField) (op : StampOp) :
    Except WriteError ClaimedStamp :=
  if op = .toNull ∧ !f.acceptsNull then
    .error (.failed ("db: StampNull on \"" ++ f.goName ++ "\" (table \"" ++ table ++
      "\") — the field is int64 and a plain int64 has no absence to write. Declare it *int64 " ++
      "and the column nullable, or use StampEmpty to reset it to 0"))
  else .ok { column := f.column, op, counter := f.counter }

/-- The requests a schema declares, in declaration order, and the names it does not know. -/
def claimStampRequests (s : StampedSchema) (reqs : AssocMap String StampOp) :
    Except WriteError (List ClaimedStamp × List String) := do
  let claimed ← s.stamped.foldlM (fun acc f =>
    match reqs.get f.goName with
    | none => .ok acc
    | some op => do return acc ++ [← claimStamp s.table f op]) []
  return (claimed, reqs.keys.filter fun g => g ∉ s.stamped.map StampedField.goName)

/-- A name no schema claims is a mistake: a plain field, or no field at all. -/
def refuseUnclaimedStamps (s : StampedSchema) : List String → Except WriteError Unit
  | [] => .ok ()
  | g :: _ =>
    match s.plainNames.get g with
    | some column => .error (.failed ("db: " ++ s.table ++ ".Stamp(\"" ++ g ++ "\") — \"" ++ g ++
        "\" is a plain field on table \"" ++ s.table ++ "\", so its value comes from the entity " ++
        "and stamping it would do nothing. Declare it with StampedTimeField(\"" ++ g ++ "\", \"" ++
        column ++ "\") to hand its value to the framework"))
    | none => .error (.failed ("db: " ++ s.table ++ ".Stamp(\"" ++ g ++ "\") — table \"" ++
        s.table ++ "\" declares no stamped field \"" ++ g ++ "\". Stamped fields are declared " ++
        "with StampedTimeField(goName, column); check the spelling of the Go field name"))

/-- What the stamp requests of one write resolve into, by what filling a column means. -/
structure StampPlan where
  nowCols : List String
  counters : List String := []
  nullCols : List String := []
  zeroTimes : List String := []
  zeroCounters : List String := []
  requestedTimes : List String := []
  payload : List String := []

/-- The columns of the claims of one kind. -/
def claimedColumns (claims : List ClaimedStamp) (p : ClaimedStamp → Bool) : List String :=
  (claims.filter p).map ClaimedStamp.column

/-- The claims as the pieces of a statement; the requested times join the verb's own. -/
def splitStamps (nowCols : List String) (claims : List ClaimedStamp) : StampPlan :=
  let nullCols := claimedColumns claims (·.op = .toNull)
  let zeroCounters := claimedColumns claims fun c => c.op = .toEmpty && c.counter
  let zeroTimes := claimedColumns claims fun c => c.op = .toEmpty && !c.counter
  let requestedTimes := claimedColumns claims fun c => c.op = .fill && !c.counter
  { nowCols := nowCols ++ requestedTimes
    counters := claimedColumns claims fun c => c.op = .fill && c.counter
    nullCols, zeroTimes, zeroCounters, requestedTimes
    payload := requestedTimes ++ nullCols ++ zeroTimes ++ zeroCounters }

/-- The plan of a write whose requests one schema owns. -/
def stampedCols (s : StampedSchema) (reqs : AssocMap String StampOp) (nowCols : List String) :
    Except WriteError StampPlan := do
  let (claims, unclaimed) ← claimStampRequests s reqs
  refuseUnclaimedStamps s unclaimed
  return splitStamps nowCols claims

/-- What the plan knows the statement wrote. -/
def StampPlan.stamps (plan : StampPlan) (now : Instant) : Fields :=
  plan.requestedTimes.map (·, .time now) ++ plan.nullCols.map (·, .null) ++
    plan.zeroTimes.map (·, .time 0) ++ plan.zeroCounters.map (·, .int 0)

/-- The bound fields and the stamped ones the statement filled. -/
def withStamps (fields : Fields) (plan : StampPlan) (now : Instant) : Fields :=
  if plan.payload = [] then fields else fields.setAll (plan.stamps now)

/-! ### The statement and the payload -/

/-- The right side of an assignment: a value of the framework's, or the server's increment. -/
inductive Assignment where
  | value (v : Value)
  | increment
  deriving DecidableEq, Repr

/-- A list of assignments of values. -/
def assign (fields : Fields) : List (String × Assignment) := fields.map fun p => (p.1, .value p.2)

/-- The assignments of an `INSERT`: a counter and the revision of a fresh row start at one. -/
def buildInsertWithCounters (pk id : String) (fields : Fields) (plan : StampPlan) (now : Instant)
    (revCol : String) : List (String × Assignment) :=
  assign ([(pk, .str id)] ++ fields ++ plan.nowCols.map (·, .time now) ++
    plan.counters.map (·, .int 1) ++ plan.nullCols.map (·, .null) ++
    plan.zeroCounters.map (·, .int 0) ++ plan.zeroTimes.map (·, .time 0) ++ [(revCol, .int 1)])

/-- The assignments of an `UPDATE`: counters and the revision are the server's. -/
def buildSetWithCounters (fields : Fields) (plan : StampPlan) (now : Instant) (revCol : String) :
    List (String × Assignment) :=
  assign (fields ++ plan.nowCols.map (·, .time now)) ++ plan.counters.map (·, .increment) ++
    assign (plan.nullCols.map (·, .null) ++ plan.zeroCounters.map (·, .int 0) ++
      plan.zeroTimes.map (·, .time 0)) ++ [(revCol, .increment)]

/-- The verbs with a body. -/
inductive BodyVerb where
  | insert
  | update
  | archive
  | unarchive
  deriving DecidableEq, Repr

open BodyVerb

/-- The columns a verb binds to its instant whatever is requested. -/
def BodyVerb.nowColumns (s : SchemaDecl) : BodyVerb → List String
  | .insert => s.createdAt.toList ++ s.updatedAt.toList
  | .update | .archive | .unarchive => s.updatedAt.toList

/-- The root statement of a write and the payload of its event. -/
structure RootWrite where
  statement : List (String × Assignment)
  payload : Payload

/-- The transition an archive verb adds to the written columns. -/
def transitionValue (archive : Bool) (now : Instant) : Value :=
  if archive then .time now else .null

variable {α ω : Type}

section

variable [PersistentItem α]

/-- The statement and the payload of an archive verb: the payload is handed the columns of the
entity and the transition, without the plan. -/
def archiveRootWrite (s : StampedSchema) (archive : Bool) (src : Entity α)
    (reqs : AssocMap String StampOp) (now : Instant) (root : Option (AggregateRoot α))
    (stamps : CascadeStamps) (ids : OutboxMeta) : Except WriteError RootWrite :=
  match s.archivedAt with
  | none => .error (.failed ("db: " ++ src.name ++ " did not declare ArchivedAt in its " ++
      "TableSchema — archive/unarchive is unavailable"))
  | some archivedCol => do
    let fields := set (writeFields s.fields src.values) archivedCol
      (transitionValue archive now)
    let plan ← stampedCols s reqs (nowColumns s.toSchemaDecl .archive)
    return { statement := buildSetWithCounters fields plan now s.revisionColumn
             payload := buildWritePayload s.toSchemaDecl src root (archiveEvent archive) now
               stamps fields ids }

/-- The statement and the payload of a verb on a root without a shared base.  The aggregate with
its minted ids, the instants of the cascades and the identity block are those the rest of the
transaction came to. -/
def rootWrite (s : StampedSchema) (verb : BodyVerb) (src : Entity α)
    (reqs : AssocMap String StampOp) (now : Instant) (root : Option (AggregateRoot α))
    (stamps : CascadeStamps) (ids : OutboxMeta) : Except WriteError RootWrite :=
  match verb with
  | .insert => do
    let fields := writeFields s.fields src.values
    let plan ← stampedCols s reqs (nowColumns s.toSchemaDecl .insert)
    return { statement := buildInsertWithCounters s.idColumn ids.id fields plan now
               s.revisionColumn
             payload := buildWritePayload s.toSchemaDecl src root .inserted now {}
               (withStamps fields plan now) ids }
  | .update => do
    let fields := writeFields s.fields src.values
    let plan ← stampedCols s reqs (nowColumns s.toSchemaDecl .update)
    return { statement := buildSetWithCounters fields plan now s.revisionColumn
             payload := buildWritePayload s.toSchemaDecl src root .updated now {}
               (withStamps fields plan now) ids }
  | .archive => archiveRootWrite s true src reqs now root stamps ids
  | .unarchive => archiveRootWrite s false src reqs now root stamps ids

end

/-! ### What the plan holds -/

variable {reqs : AssocMap String StampOp} {fields : Fields} {claims : List ClaimedStamp}
  {nowCols : List String} {k : String} {v : Value}

variable {s : StampedSchema}

theorem claimStampRequests_ok {unclaimed : List String}
    (h : claimStampRequests s reqs = .ok (claims, unclaimed)) : claims = s.claims reqs := by
  simp only [claimStampRequests, bind_ok, pure_ok, Prod.mk.injEq] at h
  obtain ⟨claimed, hfold, rfl, -⟩ := h
  -- the loop appends the claims of the fields it has passed
  have hgen : ∀ (l : List StampedField) (acc : List ClaimedStamp), l.foldlM (fun acc f =>
        match reqs.get f.goName with
        | none => .ok acc
        | some op => do return acc ++ [← claimStamp s.table f op]) acc =
          (.ok claimed : Except WriteError _) →
      claimed = acc ++ l.filterMap fun f => (reqs.get f.goName).map fun op =>
        { column := f.column, op, counter := f.counter } := by
    intro l
    induction l with
    | nil =>
      intro acc h
      cases h
      simp
    | cons f l ih =>
      intro acc h
      rw [foldlM_cons, bind_ok] at h
      obtain ⟨acc', hf, h⟩ := h
      have := ih acc' h
      cases hr : reqs.get f.goName with
      | none =>
        simp only [hr] at hf
        cases hf
        simpa [filterMap_cons, hr] using this
      | some op =>
        simp only [hr, claimStamp, bind_ok, pure_ok] at hf
        obtain ⟨c, hc, rfl⟩ := hf
        split_ifs at hc
        cases hc
        simpa [filterMap_cons, hr] using this
  exact hgen s.stamped [] hfold

/-- The claims of a write: at most one for each stamped field, as requested. -/
structure Claims (s : StampedSchema) (reqs : AssocMap String StampOp)
    (claims : List ClaimedStamp) : Prop where
  mem_iff : ∀ c, c ∈ claims ↔ ∃ f ∈ s.stamped, f.column = c.column ∧ f.counter = c.counter ∧
    reqs.get f.goName = some c.op
  inj : ∀ c ∈ claims, ∀ c' ∈ claims, c.column = c'.column → c = c'

theorem mem_claims {c : ClaimedStamp} : c ∈ s.claims reqs ↔
    ∃ f ∈ s.stamped, f.column = c.column ∧ f.counter = c.counter ∧
      reqs.get f.goName = some c.op := by
  rw [StampedSchema.claims, mem_filterMap]
  constructor
  · rintro ⟨f, hf, hc⟩
    obtain ⟨op, hop, rfl⟩ := Option.map_eq_some_iff.1 hc
    exact ⟨f, hf, rfl, rfl, hop⟩
  · rintro ⟨f, hf, hcol, hcnt, hop⟩
    refine ⟨f, hf, ?_⟩
    rw [hop, hcol, hcnt]
    rfl

theorem stampedCols_ok {plan : StampPlan}
    (h : stampedCols s reqs nowCols = .ok plan) :
    ∃ claims, Claims s reqs claims ∧ plan = splitStamps nowCols claims := by
  simp only [stampedCols, bind_ok, pure_ok, Prod.exists] at h
  obtain ⟨claims, unclaimed, hclaim, -, -, rfl⟩ := h
  obtain rfl := claimStampRequests_ok hclaim
  refine ⟨_, ⟨fun c => mem_claims, fun c hc c' hc' he => ?_⟩, rfl⟩
  obtain ⟨f, hf, hcol, hcnt, hop⟩ := mem_claims.1 hc
  obtain ⟨f', hf', hcol', hcnt', hop'⟩ := mem_claims.1 hc'
  obtain rfl : f = f' :=
    inj_on_of_nodup_map s.stamped_columns_nodup hf hf' (hcol.trans (he.trans hcol'.symm))
  cases c
  simp_all

theorem mem_claimedColumns {p : ClaimedStamp → Bool} :
    k ∈ claimedColumns claims p ↔ ∃ c ∈ claims, c.column = k ∧ p c = true := by
  simp only [claimedColumns, mem_map, mem_filter]
  exact ⟨fun ⟨c, ⟨hc, hp⟩, hk⟩ => ⟨c, hc, hk, hp⟩, fun ⟨c, hc, hk, hp⟩ => ⟨c, ⟨hc, hp⟩, hk⟩⟩

theorem mem_stamps {now : Instant} :
    (k, v) ∈ (splitStamps nowCols claims).stamps now ↔
      ∃ c ∈ claims, c.column = k ∧ c.known now = some v := by
  simp only [StampPlan.stamps, splitStamps, mem_append, mem_map, Prod.mk.injEq, mem_claimedColumns]
  constructor
  · rintro (((⟨_, ⟨c, hc, rfl, hp⟩, rfl, rfl⟩ | ⟨_, ⟨c, hc, rfl, hp⟩, rfl, rfl⟩) |
      ⟨_, ⟨c, hc, rfl, hp⟩, rfl, rfl⟩) | ⟨_, ⟨c, hc, rfl, hp⟩, rfl, rfl⟩) <;>
      refine ⟨c, hc, rfl, ?_⟩ <;> simp_all [ClaimedStamp.known]
  · rintro ⟨c, hc, rfl, hv⟩
    obtain ⟨column, op, counter⟩ := c
    cases op <;> cases counter <;> simp only [ClaimedStamp.known, reduceCtorEq] at hv <;> cases hv
    · exact .inl (.inl (.inl ⟨column, ⟨_, hc, rfl, rfl⟩, rfl, rfl⟩))
    · exact .inl (.inl (.inr ⟨column, ⟨_, hc, rfl, rfl⟩, rfl, rfl⟩))
    · exact .inl (.inl (.inr ⟨column, ⟨_, hc, rfl, rfl⟩, rfl, rfl⟩))
    · exact .inl (.inr ⟨column, ⟨_, hc, rfl, rfl⟩, rfl, rfl⟩)
    · exact .inr ⟨column, ⟨_, hc, rfl, rfl⟩, rfl, rfl⟩

theorem keys_stamps (now : Instant) :
    ((splitStamps nowCols claims).stamps now).keys = (splitStamps nowCols claims).payload := by
  simp [StampPlan.stamps, splitStamps, AssocMap.keys, Function.comp_def]

theorem withStamps_eq (now : Instant) :
    withStamps fields (splitStamps nowCols claims) now =
      fields.setAll ((splitStamps nowCols claims).stamps now) := by
  rw [withStamps]
  split_ifs with h
  · rw [← keys_stamps now, AssocMap.keys, map_eq_nil_iff] at h
    rw [h]
    rfl
  · rfl

/-! ### The columns of the payload -/

theorem redactSyncColumns_plain {fields : List SchemaField} (h : ∀ f ∈ fields, f.inSync = none)
    (m : Fields) : redactSyncColumns fields m = m := by
  refine (map_congr_left fun p _ => ?_).trans (map_id m)
  have hval : redactValue fields p.1 p.2 = p.2 := by
    unfold redactValue
    cases hf : fields.find? (·.column = p.1) with
    | none => rfl
    | some f => simp only [SchemaField.redact, h f (mem_of_find?_eq_some hf)]
  rw [hval]
  rfl

theorem get_foldl_siblings (sibs : List SiblingSchema) (values : String → Value) (m : Fields)
    (hk : k ∉ sibs.flatMap (columns ·.fields)) :
    (sibs.foldl (fun out sib => out.setAll (syncFields sib.fields values)) m).get k = m.get k := by
  induction sibs generalizing m with
  | nil => rfl
  | cons sib sibs ih =>
    rw [flatMap_cons, mem_append, not_or] at hk
    rw [foldl_cons, ih _ hk.2, get_setAll_of_not_mem]
    rw [keys_syncFields]
    exact hk.1

/-- The managed columns of a schema, in the order the document lists them. -/
def managedColumns (s : SchemaDecl) : List String :=
  s.archivedAt.toList ++ s.createdAt.toList ++ s.updatedAt.toList

theorem rootColumns_nodup (s : TableSchema) :
    (s.idColumn :: columns s.fields ++ s.siblings.flatMap (columns ·.fields) ++
      managedColumns s).Nodup := by
  have h : s.ownColumns.Nodup := s.keys_nodup.of_append_left.of_append_left
  simpa [managedColumns, append_assoc] using h.of_append_left

theorem managed_disjoint (s : TableSchema) (hk : k ∈ managedColumns s) :
    k ≠ s.idColumn ∧ k ∉ columns s.fields ∧ k ∉ s.siblings.flatMap (columns ·.fields) := by
  have h := disjoint_of_nodup_append (rootColumns_nodup s)
  simp only [disjoint_left, mem_append, mem_cons] at h
  refine ⟨?_, fun hmem => h (.inl (.inr hmem)) hk, fun hmem => h (.inr hmem) hk⟩
  rintro rfl
  exact h (.inl (.inl rfl)) hk

theorem business_disjoint (s : TableSchema) (hk : k ∈ columns s.fields) :
    k ≠ s.idColumn ∧ k ∉ s.siblings.flatMap (columns ·.fields) := by
  have h := (rootColumns_nodup s).of_append_left
  refine ⟨?_, fun hmem => disjoint_of_nodup_append h (mem_cons_of_mem _ hk) hmem⟩
  rintro rfl
  exact (nodup_cons.1 h.of_append_left).1 hk

theorem keys_managedTimestamps_nodup (s : TableSchema) (now : Instant) (ev : EventType) :
    (managedTimestamps s now ev).keys.Nodup := by
  have h : (managedColumns s).Nodup := (rootColumns_nodup s).of_append_right
  have hperm : (s.createdAt.toList ++ s.updatedAt.toList ++ s.archivedAt.toList).Nodup := by
    refine List.Perm.nodup ?_ h
    rw [managedColumns, append_assoc]
    exact perm_append_comm
  cases ev <;>
    simp only [managedTimestamps, AssocMap.keys, map_append, map_map, Function.comp_def,
      map_id', map_nil, nodup_nil]
  · exact hperm
  · exact h.of_append_right
  · exact h.of_append_left.of_append_left
  · exact h.of_append_left.of_append_left

variable [PersistentItem α] {s : StampedSchema} {src : Entity α} {root : Option (AggregateRoot α)}
  {ev : EventType} {now : Instant} {stamps : CascadeStamps} {ids : OutboxMeta}

section

variable (hplain : ∀ f ∈ s.fields, f.inSync = none) (hbase : s.sharedBase = none)
  (rootFields : Fields) (hk : k ∉ s.siblings.flatMap (columns ·.fields))
include hplain hbase rootFields hk

/-- A column of the root row in a payload: a managed timestamp of the verb, or what the payload was
handed. -/
theorem get_payload :
    (buildWritePayload s.toSchemaDecl src root ev now stamps rootFields ids).scalars.get k =
      ((managedTimestamps s.toSchemaDecl now ev).get k).or (rootFields.get k) := by
  simp only [buildWritePayload, sharedBaseScalars, hbase]
  rw [get_setAll _ (keys_managedTimestamps_nodup s.toTableSchema now ev)]
  congr 1
  exact (get_foldl_siblings s.siblings src.values _ hk).trans
    (by rw [redactSyncColumns_plain hplain])

theorem get_payload_handed (hm : k ∉ managedColumns s.toSchemaDecl) :
    (buildWritePayload s.toSchemaDecl src root ev now stamps rootFields ids).scalars.get k =
      rootFields.get k := by
  have hnone : (managedTimestamps s.toSchemaDecl now ev).get k = none :=
    (get_eq_none_iff _ _).2 fun h => hm (managedTimestamps_keys h)
  rw [get_payload hplain hbase rootFields hk, hnone, Option.none_or]

end

theorem stamped_disjoint {f : StampedField} (hf : f ∈ s.stamped) :
    f.column ≠ s.idColumn ∧ f.column ∉ columns s.fields ∧
      f.column ∉ s.siblings.flatMap (columns ·.fields) ∧
      f.column ∉ managedColumns s.toSchemaDecl := by
  have h := s.stamped_not_key f hf
  simp only [documentKeys, ownColumns, mem_append, mem_cons, not_or] at h
  simp only [managedColumns, mem_append, not_or]
  tauto

/-! ### Completeness -/

/-- The columns of the root row an event is to tell: business fields, managed timestamps and
stamped times.  Counters, the revision and the id, which travels in its own block, are not. -/
def IsDataColumn (s : StampedSchema) (k : String) : Prop :=
  k ∈ columns s.fields ∨ k ∈ managedColumns s.toSchemaDecl ∨
    ∃ f ∈ s.stamped, f.counter = false ∧ f.column = k

/-- Every data column the statement binds to a value is in the payload with that value. -/
def RootWrite.Complete (s : StampedSchema) (w : RootWrite) : Prop :=
  ∀ k v, IsDataColumn s k → (k, Assignment.value v) ∈ w.statement → w.payload.scalars.get k = some v

/-- The write asks for a stamped time. -/
def AsksTime (s : StampedSchema) (reqs : AssocMap String StampOp) : Prop :=
  ∃ f ∈ s.stamped, f.counter = false ∧ f.goName ∈ reqs.keys

/-- What a statement binds besides the key, the counters and the revision. -/
def Binds (fields : Fields) (nowCols : List String) (claims : List ClaimedStamp) (now : Instant)
    (k : String) (v : Value) : Prop :=
  (k, v) ∈ fields ∨ (k ∈ nowCols ∧ v = .time now) ∨ (k, v) ∈ (splitStamps nowCols claims).stamps now

theorem mem_assign : (k, Assignment.value v) ∈ assign fields ↔ (k, v) ∈ fields := by
  simp [assign]

theorem mem_bound {cols : List String} {w : ω} {v : ω} :
    (k, v) ∈ cols.map (·, w) ↔ k ∈ cols ∧ v = w := by
  simp only [mem_map, Prod.mk.injEq]
  exact ⟨fun ⟨_, h, hk, hv⟩ => ⟨hk ▸ h, hv.symm⟩, fun ⟨h, hv⟩ => ⟨k, h, rfl, hv.symm⟩⟩

theorem mem_buildSetWithCounters {revCol : String} :
    (k, Assignment.value v) ∈ buildSetWithCounters fields (splitStamps nowCols claims) now revCol ↔
      Binds fields nowCols claims now k v := by
  simp only [buildSetWithCounters, Binds, StampPlan.stamps, mem_append, mem_assign, mem_bound,
    mem_singleton, Prod.mk.injEq, reduceCtorEq, and_false, or_false, splitStamps,
    or_and_right]
  exact iff_of_eq (by ac_rfl)

theorem IsDataColumn.ne (h : IsDataColumn s k) :
    k ≠ s.idColumn ∧ k ≠ s.revisionColumn ∧ ∀ f ∈ s.stamped, f.counter = true → f.column ≠ k := by
  have hown : k ∈ s.ownColumns → k ≠ s.idColumn → k ≠ s.idColumn ∧ k ≠ s.revisionColumn ∧
      ∀ f ∈ s.stamped, f.counter = true → f.column ≠ k := by
    intro hk hid
    have hkey : k ∈ s.documentKeys := mem_append_left _ (mem_append_left _ hk)
    refine ⟨hid, fun he => s.revision_not_key (he ▸ hkey), fun f hf _ he => ?_⟩
    exact s.stamped_not_key f hf (he ▸ hkey)
  rcases h with h | h | ⟨f, hf, hcnt, rfl⟩
  · refine hown ?_ (business_disjoint s.toTableSchema h).1
    simp [ownColumns, h]
  · refine hown ?_ (managed_disjoint s.toTableSchema h).1
    simp only [managedColumns, mem_append] at h
    simp only [ownColumns, mem_append]
    tauto
  · refine ⟨(stamped_disjoint hf).1, s.stamped_not_revision f hf, fun f' hf' hcnt' he => ?_⟩
    rw [inj_on_of_nodup_map s.stamped_columns_nodup hf' hf he, hcnt] at hcnt'
    cases hcnt'

theorem mem_buildInsertWithCounters (hc : Claims s reqs claims) {id : String}
    (hk : IsDataColumn s k) :
    (k, Assignment.value v) ∈ buildInsertWithCounters s.idColumn id fields
        (splitStamps nowCols claims) now s.revisionColumn ↔
      Binds fields nowCols claims now k v := by
  obtain ⟨hid, hrev, hcnt⟩ := hk.ne
  have hcounters : k ∉ claimedColumns claims fun c => c.op = .fill && c.counter := by
    intro h
    obtain ⟨c, hmem, rfl, hp⟩ := mem_claimedColumns.1 h
    obtain ⟨f, hf, hcol, hfc, -⟩ := (hc.mem_iff c).1 hmem
    exact hcnt f hf (hfc.trans (Bool.and_eq_true_iff.1 hp).2) hcol
  simp only [buildInsertWithCounters, Binds, StampPlan.stamps, mem_append, mem_assign,
    mem_bound, mem_singleton, Prod.mk.injEq, splitStamps, hid, hrev, hcounters, false_and,
    false_or, or_false, or_and_right]
  exact iff_of_eq (by ac_rfl)

theorem Claims.stamped (hc : Claims s reqs claims)
    (h : (k, v) ∈ (splitStamps nowCols claims).stamps now) :
    ∃ f ∈ s.stamped, f.column = k ∧ f.goName ∈ reqs.keys := by
  obtain ⟨c, hmem, rfl, -⟩ := mem_stamps.1 h
  obtain ⟨f, hf, hcol, -, hop⟩ := (hc.mem_iff c).1 hmem
  refine ⟨f, hf, hcol, ?_⟩
  by_contra hnot
  rw [(get_eq_none_iff _ _).2 hnot] at hop
  cases hop

/-- A write that hands its plan to the payload, and whose verb names the columns it binds to the
instant, tells everything it binds. -/
theorem told_of_binds (hc : Claims s reqs claims) (hplain : ∀ f ∈ s.fields, f.inSync = none)
    (hbase : s.sharedBase = none)
    (hnow : ∀ k ∈ nowCols, k ∈ managedColumns s.toSchemaDecl ∧
      (managedTimestamps s.toSchemaDecl now ev).get k = some (.time now))
    (h : Binds (writeFields s.fields src.values) nowCols claims now k v) :
    (buildWritePayload s.toSchemaDecl src root ev now stamps
      (withStamps (writeFields s.fields src.values) (splitStamps nowCols claims) now)
        ids).scalars.get k = some v := by
  rw [withStamps_eq]
  rcases h with h | ⟨h, rfl⟩ | h
  · obtain ⟨c, hcol, he⟩ := mem_map.1 h
    obtain ⟨rfl, rfl⟩ := Prod.mk.inj he
    have hsib := (business_disjoint s.toTableSchema hcol).2
    have hman : c ∉ managedColumns s.toSchemaDecl := fun hm =>
      (managed_disjoint s.toTableSchema hm).2.1 hcol
    rw [get_payload_handed hplain hbase _ hsib hman, get_setAll_of_not_mem,
      get_writeFields, if_pos hcol]
    intro hmem
    obtain ⟨p, hp, rfl⟩ := mem_map.1 hmem
    obtain ⟨f, hf, hfc, -⟩ := hc.stamped hp
    exact (stamped_disjoint hf).2.1 (hfc ▸ hcol)
  · obtain ⟨hman, hval⟩ := hnow k h
    rw [get_payload hplain hbase _ (managed_disjoint s.toTableSchema hman).2.2, hval]
    rfl
  · obtain ⟨f, hf, rfl, -⟩ := hc.stamped h
    obtain ⟨-, -, hsib, hman⟩ := stamped_disjoint hf
    rw [get_payload_handed hplain hbase _ hsib hman]
    -- the claim of a column is the only one, so the assignment made last is its own
    refine get_setAll_of_mem _ h fun w hw => ?_
    obtain ⟨c, hmem, hcol, hv⟩ := mem_stamps.1 h
    obtain ⟨c', hmem', hcol', hw⟩ := mem_stamps.1 hw
    rw [hc.inj c' hmem' c hmem (hcol'.trans hcol.symm), hv] at hw
    exact (Option.some_inj.1 hw).symm

/-- What the payload of an archive verb tells of the row: the business columns and the
transition. -/
theorem get_archive_payload (hplain : ∀ f ∈ s.fields, f.inSync = none) (hbase : s.sharedBase = none)
    {archive : Bool} {archivedCol : String} (hcol : s.archivedAt = some archivedCol)
    (hsib : k ∉ s.siblings.flatMap (columns ·.fields)) :
    (buildWritePayload s.toSchemaDecl src root (archiveEvent archive) now stamps
      (set (writeFields s.fields src.values) archivedCol (transitionValue archive now))
        ids).scalars.get k =
      if k = archivedCol then some (transitionValue archive now)
      else if k ∈ columns s.fields then some (src.values k) else none := by
  have hman : (managedTimestamps s.toSchemaDecl now (archiveEvent archive)).get k =
      if k = archivedCol then some (transitionValue archive now) else none := by
    cases archive <;>
      simp [archiveEvent, managedTimestamps, hcol, get_cons, transitionValue, eq_comm]
  rw [get_payload hplain hbase _ hsib, hman, get_set, get_writeFields]
  by_cases hk : k = archivedCol
  · simp [hk]
  · simp [hk, Ne.symm hk]

/-- An archive verb tells everything it binds exactly when it dates no column but the transition:
the schema has no UpdatedAt column and no stamped time is asked for. -/
theorem archive_complete_iff (hplain : ∀ f ∈ s.fields, f.inSync = none)
    (hbase : s.sharedBase = none) {archive : Bool} {w : RootWrite}
    (h : archiveRootWrite s archive src reqs now root stamps ids = .ok w) :
    w.Complete s ↔ s.updatedAt = none ∧ ¬ AsksTime s reqs := by
  rw [archiveRootWrite] at h
  split at h
  · cases h
  rename_i archivedCol hcol
  simp only [bind_ok, pure_ok] at h
  obtain ⟨plan, hplan, rfl⟩ := h
  obtain ⟨claims, hc, rfl⟩ := stampedCols_ok hplan
  have harch : archivedCol ∈ managedColumns s.toSchemaDecl := by simp [managedColumns, hcol]
  constructor
  · intro hall
    refine ⟨?_, ?_⟩
    · -- the UpdatedAt column is bound, and the payload has no such key
      by_contra hne
      obtain ⟨u, hu⟩ := Option.ne_none_iff_exists'.1 hne
      have hman : u ∈ managedColumns s.toSchemaDecl := by simp [managedColumns, hu]
      have hdisj := managed_disjoint s.toTableSchema hman
      have hua : u ≠ archivedCol := by
        rintro rfl
        have hnodup : (managedColumns s.toSchemaDecl).Nodup :=
          (rootColumns_nodup s.toTableSchema).of_append_right
        simp [managedColumns, hcol, hu, nodup_cons] at hnodup
      have hget := hall u (.time now) (.inr (.inl hman)) (mem_buildSetWithCounters.2
        (.inr (.inl ⟨by simp [nowColumns, hu], rfl⟩)))
      rw [get_archive_payload hplain hbase hcol hdisj.2.2, if_neg hua, if_neg hdisj.2.1] at hget
      cases hget
    · rintro ⟨f, hf, hcnt, hreq⟩
      obtain ⟨-, hbus, hsib, hman⟩ := stamped_disjoint hf
      obtain ⟨op, hop⟩ : ∃ op, reqs.get f.goName = some op :=
        Option.ne_none_iff_exists'.1 fun hnone => (get_eq_none_iff _ _).1 hnone hreq
      have hclaim : (⟨f.column, op, false⟩ : ClaimedStamp) ∈ claims :=
        (hc.mem_iff _).2 ⟨f, hf, rfl, hcnt, hop⟩
      obtain ⟨v, hv⟩ : ∃ v, (⟨f.column, op, false⟩ : ClaimedStamp).known now = some v := by
        cases op <;> exact ⟨_, rfl⟩
      have hget := hall f.column v (.inr (.inr ⟨f, hf, hcnt, rfl⟩)) (mem_buildSetWithCounters.2
        (.inr (.inr (mem_stamps.2 ⟨_, hclaim, rfl, hv⟩))))
      have hne : f.column ≠ archivedCol := fun he => hman (he ▸ harch)
      rw [get_archive_payload hplain hbase hcol hsib, if_neg hne, if_neg hbus] at hget
      cases hget
  · rintro ⟨hupd, hasks⟩ k v hk hmem
    rcases mem_buildSetWithCounters.1 hmem with h | ⟨h, -⟩ | h
    · have hdisj := managed_disjoint s.toTableSchema harch
      rcases mem_set h with h | he
      · obtain ⟨c, hbus, he⟩ := mem_map.1 h
        obtain ⟨rfl, rfl⟩ := Prod.mk.inj he
        have hne : c ≠ archivedCol := fun he => hdisj.2.1 (he ▸ hbus)
        rw [get_archive_payload hplain hbase hcol (business_disjoint s.toTableSchema hbus).2,
          if_neg hne, if_pos hbus]
      · obtain ⟨rfl, rfl⟩ := Prod.mk.inj he
        rw [get_archive_payload hplain hbase hcol hdisj.2.2, if_pos rfl]
    · simp [nowColumns, hupd] at h
    · obtain ⟨f, hf, rfl, hreq⟩ := hc.stamped h
      refine absurd ⟨f, hf, ?_, hreq⟩ hasks
      by_contra hcnt
      exact hk.ne.2.2 f hf (Bool.not_eq_false _ ▸ hcnt) rfl

/-- Every column of the root row a verb binds to a known value is told by its event exactly when
the verb is an insert or an update, or an archive verb that dates no column but the transition. -/
theorem rootWrite_complete_iff (s : StampedSchema) (hplain : ∀ f ∈ s.fields, f.inSync = none)
    (hbase : s.sharedBase = none) (verb : BodyVerb) (src : Entity α)
    (reqs : AssocMap String StampOp) (now : Instant) (root : Option (AggregateRoot α))
    (stamps : CascadeStamps) (ids : OutboxMeta) (w : RootWrite)
    (h : rootWrite s verb src reqs now root stamps ids = .ok w) :
    w.Complete s ↔ verb = .insert ∨ verb = .update ∨ (s.updatedAt = none ∧ ¬ AsksTime s reqs) := by
  cases verb with
  | insert =>
    simp only [rootWrite, bind_ok, pure_ok] at h
    obtain ⟨plan, hplan, rfl⟩ := h
    obtain ⟨claims, hc, rfl⟩ := stampedCols_ok hplan
    refine iff_of_true (fun k v hk hmem => ?_) (.inl rfl)
    refine told_of_binds hc hplain hbase (fun k hk => ?_)
      ((mem_buildInsertWithCounters hc hk).1 hmem)
    have hnodup := keys_managedTimestamps_nodup s.toTableSchema now .inserted
    simp only [nowColumns, mem_append] at hk
    refine ⟨?_, get_of_mem hnodup (p := (k, Value.time now)) ?_⟩
    · simp only [managedColumns, mem_append]
      tauto
    · simp only [managedTimestamps, mem_append, mem_bound]
      tauto
  | update =>
    simp only [rootWrite, bind_ok, pure_ok] at h
    obtain ⟨plan, hplan, rfl⟩ := h
    obtain ⟨claims, hc, rfl⟩ := stampedCols_ok hplan
    refine iff_of_true (fun k v _ hmem => ?_) (.inr (.inl rfl))
    refine told_of_binds hc hplain hbase (fun k hk => ?_) (mem_buildSetWithCounters.1 hmem)
    have hnodup := keys_managedTimestamps_nodup s.toTableSchema now .updated
    refine ⟨?_, get_of_mem hnodup (p := (k, Value.time now)) ?_⟩
    · simp only [managedColumns, mem_append]
      exact .inr hk
    · exact mem_bound.2 ⟨hk, rfl⟩
  | archive | unarchive => simpa using archive_complete_iff hplain hbase h

/-- A contract with an archived state and the instant of its last write, signed on request. -/
def contractSchema : StampedSchema where
  table := "contracts"
  idColumn := "id"
  fields := [{ column := "title" }]
  revisionColumn := "revision"
  archivedAt := some "archived_at"
  updatedAt := some "updated_at"
  stamped := [{ goName := "SignedAt", column := "signed_at" }]
  plainNames := [("Title", "title")]
  stamped_columns_nodup := by decide
  stamped_not_key := by decide
  stamped_not_revision := by decide

/-- A contract as it is archived. -/
def contract : Entity Address :=
  { name := "Contract", id := "k1", values := fun _ => .str "lease", revision := 3 }

/-- The archive of a contract stamps the last write and the signature on the row, and its event
tells neither. -/
theorem archive_leaves_out_stamps :
    ∃ w, rootWrite contractSchema .archive contract [("SignedAt", .fill)] 7 none { own := some 7 }
        { id := "k1", revision := 4 } = .ok w ∧
      ("updated_at", Assignment.value (.time 7)) ∈ w.statement ∧
      ("signed_at", Assignment.value (.time 7)) ∈ w.statement ∧
      w.payload.scalars = [("title", .str "lease"), ("archived_at", .time 7)] ∧
      ¬ w.Complete contractSchema := by
  refine ⟨_, rfl, by decide, by decide, by decide, fun hall => ?_⟩
  have hget := hall "updated_at" (.time 7) (.inr (.inl (by decide))) (by decide)
  exact absurd hget (by decide)

/-- The update of the same contract tells both. -/
theorem contract_update_told :
    ∃ w, rootWrite contractSchema .update contract [("SignedAt", .fill)] 7 none {}
        { id := "k1", revision := 4 } = .ok w ∧ w.Complete contractSchema :=
  ⟨_, rfl, (rootWrite_complete_iff contractSchema (by decide) rfl .update contract
    [("SignedAt", .fill)] 7 none {} { id := "k1", revision := 4 } _ rfl).2 (.inr (.inl rfl))⟩

/-! ### The requests an instance carries -/

/-- An entity instance: the requests it carries, those made since its last successful write, and of
each successful write what its schemas have claimed, beside what they declare of the requests made
since the write before. -/
structure StampingInstance where
  stamps : AssocMap String StampOp := []
  since : AssocMap String StampOp := []
  writes : List (List (List ClaimedStamp) × List (List ClaimedStamp)) := []

/-- A request, by a method or by a rule of any validation pass, or a write. -/
inductive InstanceAction where
  | stamp (goField : String) (op : StampOp)
  | write

/-- A request of a field replaces its earlier one in place. -/
def stampAs (stamps : AssocMap String StampOp) (goField : String) (op : StampOp) :
    AssocMap String StampOp :=
  stamps.set goField op

section

variable (role : StampedSchema) (base : Option StampedSchema)

/-- The claims of the schema of a write and of that of its shared base; a name is a mistake only if
neither declares it. -/
def claimStampedCols (reqs : AssocMap String StampOp) :
    Except WriteError (List (List ClaimedStamp)) := do
  let (claims, unclaimed) ← claimStampRequests role reqs
  refuseUnclaimedStamps role (unclaimed.filter fun g =>
    base.all fun b => g ∉ b.stamped.map StampedField.goName)
  match base with
  | none => return [claims]
  | some b => do return [claims, (← claimStampRequests b reqs).1]

/-- What the schemas declare of a set of requests. -/
def declaredStamps (reqs : AssocMap String StampOp) : List (List ClaimedStamp) :=
  (role :: base.toList).map (·.claims reqs)

/-- A write reads the requests the instance carries, and leaves them there; one that fails changes
nothing. -/
def instanceMachine : Machine StampingInstance InstanceAction where
  step st a :=
    match a with
    | .stamp g op =>
      some { st with stamps := stampAs st.stamps g op, since := stampAs st.since g op }
    | .write =>
      match claimStampedCols role base st.stamps with
      | .error _ => some st
      | .ok claimed => some { st with
          since := []
          writes := st.writes ++ [(claimed, declaredStamps role base st.since)] }

/-- Every write has stamped what was requested since the write before. -/
def OwnStamps (st : StampingInstance) : Prop := ∀ w ∈ st.writes, w.1 = w.2

instance : DecidablePred OwnStamps := fun st =>
  inferInstanceAs (Decidable (∀ w ∈ st.writes, w.1 = w.2))

/-- A successful write finds every stamped field the instance was ever asked for requested again
since the write before. -/
def Renewed (st : StampingInstance) : InstanceAction → Prop
  | .stamp .. => True
  | .write => (claimStampedCols role base st.stamps).toOption.isSome →
    ∀ s ∈ role :: base.toList, ∀ f ∈ s.stamped, st.stamps.get f.goName = st.since.get f.goName

variable {role base}

theorem claims_eq_iff {s : StampedSchema} {reqs' : AssocMap String StampOp} :
    s.claims reqs = s.claims reqs' ↔ ∀ f ∈ s.stamped, reqs.get f.goName = reqs'.get f.goName := by
  constructor
  · intro h f hf
    have hmem : ∀ (r : AssocMap String StampOp) op, r.get f.goName = some op ↔
        ⟨f.column, op, f.counter⟩ ∈ s.claims r := by
      intro r op
      rw [mem_claims]
      refine ⟨fun h => ⟨f, hf, rfl, rfl, h⟩, ?_⟩
      rintro ⟨f', hf', hcol, -, hop⟩
      rwa [← inj_on_of_nodup_map s.stamped_columns_nodup hf' hf hcol]
    ext op
    rw [hmem, h, ← hmem]
  · intro h
    refine filterMap_congr fun f hf => ?_
    rw [h f hf]

theorem claimStampedCols_ok {claimed : List (List ClaimedStamp)}
    (h : claimStampedCols role base reqs = .ok claimed) :
    claimed = declaredStamps role base reqs := by
  simp only [claimStampedCols, bind_ok, Prod.exists] at h
  obtain ⟨claims, unclaimed, hclaim, -, -, h⟩ := h
  obtain rfl := claimStampRequests_ok hclaim
  cases base with
  | none => exact (ok.inj h).symm
  | some b =>
    simp only [bind_ok, pure_ok, Prod.exists] at h
    obtain ⟨_, _, hbase, rfl⟩ := h
    rw [claimStampRequests_ok hbase]
    rfl

end

/-- **A stamp request belongs to one write** exactly in the runs in which every write finds the
requests of the writes before it renewed. -/
theorem ownStamps_iff_renewed (role : StampedSchema) (base : Option StampedSchema)
    (as : List InstanceAction) :
    (instanceMachine role base).Always OwnStamps {} as ↔
      (instanceMachine role base).Along (Renewed role base) {} as := by
  refine Machine.always_iff_along (K := fun _ => True) (fun a _ st _ hown => ?_) trivial nofun
  cases a with
  | stamp g op => exact ⟨_, rfl, trivial, iff_of_true hown trivial⟩
  | write =>
    cases hc : claimStampedCols role base st.stamps with
    | error e =>
      refine ⟨st, by simp [instanceMachine, hc], trivial, iff_of_true hown ?_⟩
      simp [Renewed, hc, Except.toOption]
    | ok claimed =>
      refine ⟨_, by simp only [instanceMachine, hc]; rfl, trivial, ?_⟩
      rw [OwnStamps, forall_mem_append, forall_mem_singleton, claimStampedCols_ok hc,
        declaredStamps, declaredStamps, map_inj_left]
      refine (and_iff_right hown).trans ?_
      simp [Renewed, hc, Except.toOption, claims_eq_iff]

/-- A contract that is signed once and written twice: the second write signs it again. -/
theorem signature_stamped_again :
    ¬(instanceMachine contractSchema none).Always OwnStamps {}
      [.stamp "SignedAt" .fill, .write, .write] := by
  decide

end Omnicore.Write
