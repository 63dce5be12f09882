/-
# The snapshot of the job store

A flush writes the shadow of the store as one JSON document (`save_persistence_document`), and `load` builds
the queues of a fresh store from it (`load_persistence_document`).  The document has the scores and the lists as
they are, the sets as sorted lists, and each payload under one text for its kind and identity.  `sort_keys` sorts
the members of every object, so that a dictionary comes back with its keys in another order.

`readSnapshot_snapshotDocument` is the round trip of the document alone: what is written is read back.
-/
import HpcPerfStats.JobStore
import HpcPerfStats.JsonText
import Mathlib.Data.Finset.Sort

namespace JobStore

open OrderedDict PyText JsonText

/-! ## The document -/

/-- What a document is made of; scores are exact numbers. -/
abbrev Value := Json ℚ

def Kind.text : Kind → String
  | .ingest => "ingest"
  | .list .discover => "discover"
  | .list .append => "append"
  | .list .dayClose => "day_close"

def Kind.ofText (name : String) : Option Kind :=
  [.ingest, .list .discover, .list .append, .list .dayClose].find? fun kind => kind.text == name

def listKinds : List ListKind := [.discover, .append, .dayClose]

/-- `f"{kind}|{ident}"`. -/
def payloadKey (key : Kind × String) : String := key.1.text ++ ("|" ++ key.2)

/-- The members of an object in the order of `sort_keys`. -/
def sortMembers {β : Type} (members : List (String × β)) : List (String × β) :=
  members.mergeSort fun a b => a.1 ≤ b.1

def sortedObject (members : List (String × Value)) : Value := .dict (sortMembers members)

def fieldsObject (fields : Fields) : Value :=
  sortedObject (fields.entries.map fun e => (e.1, .str e.2))

/-- The members of the document: those of `_persist_writer_flush_once`, in the envelope of
`save_persistence_document`. -/
def snapshotMembers (snap : Snapshot) : List (String × Value) :=
  [("contract_version", .int 9),
    ("schema_version", .int 1),
    ("ingest", sortedObject (snap.ingest.entries.map fun e => (e.1, .float (.fin e.2)))),
    ("lists", sortedObject (listKinds.map fun k =>
      ((Kind.list k).text, .list ((snap.lists k).map .str)))),
    ("pending", sortedObject (listKinds.map fun k =>
      ((Kind.list k).text, .list (((snap.pending k).sort (· ≤ ·)).map .str)))),
    ("payloads", sortedObject (snap.payloads.entries.map fun e => (payloadKey e.1, fieldsObject e.2)))]

def snapshotDocument (snap : Snapshot) : Value := sortedObject (snapshotMembers snap)

/-! ## Reading it -/

/-- The values that `or` passes over. -/
def falsy : Value → Bool
  | .null => true
  | .bool b => !b
  | .int n => n == 0
  | .float (.fin x) => x == 0
  | .float _ => false
  | .str s => s == ""
  | .list vs => vs.isEmpty
  | .dict members => members.isEmpty

/-- `raw.get(name) or {}`; `none` when another value is used as a dictionary. -/
def objectOr : Option Value → Option (List (String × Value))
  | some (.dict members) => some members
  | some v => if falsy v then some [] else none
  | none => some []

/-- `str(item)`, of a text or an integer. -/
def readText : Value → Option String
  | .str s => some s
  | .int n => some (toString n)
  | _ => none

/-- `float(score)`, of a number. -/
def readScore : Value → Option ℚ
  | .int n => some n
  | .float (.fin x) => some x
  | _ => none

/-- The texts of `lists.get(kind) or []`. -/
def readTexts : Option Value → Option (List String)
  | some (.list vs) => vs.mapM readText
  | some v => if falsy v then some [] else none
  | none => some []

def readLists (members : List (String × Value)) : Option (ListKind → List String) :=
  let texts (k : ListKind) := readTexts ((Dict.ofPairs members).get (Kind.list k).text)
  (texts .discover).bind fun discover => (texts .append).bind fun append =>
    (texts .dayClose).map fun dayClose => fun
      | .discover => discover
      | .append => append
      | .dayClose => dayClose

/-- A dictionary of values that are read one by one. -/
def readDict {β : Type} (read : Value → Option β) (members : List (String × Value)) :
    Option (Dict String β) :=
  (members.mapM fun e => (read e.2).map fun v => (e.1, v)).map Dict.ofPairs

/-- `key.split("|", 1)`, when the key names a kind of the store. -/
def readKey (key : String) : Option (Kind × String) :=
  if '|' ∈ key.toList then (Kind.ofText (beforeSep '|' key)).map fun kind => (kind, afterSep '|' key)
  else none

/-- The payload of one member; what is no payload is passed over, as is one of a kind that no queue has. -/
def readPayload (e : String × Value) : Option (List ((Kind × String) × Fields)) :=
  match e.2, readKey e.1 with
  | .dict members, some key => (readDict readText members).map fun fields => [(key, fields)]
  | _, _ => some []

/-- `payloads` is read when it is an object. -/
def readPayloads : Option Value → Option (Dict (Kind × String) Fields)
  | some (.dict members) => (members.mapM readPayload).map fun parts => Dict.ofPairs parts.flatten
  | _ => some Dict.empty

/-- `_persistence_schema_version_ok`; `none` is the `OverflowError` of `int`. -/
def schemaVersionOk : Option Value → Option Bool
  | none => some true
  | some .null => some true
  | some (.bool b) => some b
  | some (.int n) => some (n == 1)
  | some (.float (.fin x)) => some ((PyFloat.fin x).toInt == some 1)
  | some (.float .nan) => some false
  | some (.float (.inf _)) => none
  | some (.str s) => some (pyInt s == some 1)
  | some _ => some false

/-- `_validate_envelope`, of an object with this `ingest`. -/
def ingestOk : Option Value → Bool
  | none => true
  | some .null => true
  | some (.dict _) => true
  | some _ => false

/-- `load_persistence_document` and the first half of `load`: a document that does not pass is read as no
document.  `none` when reading raises, or finds values of other types than a snapshot holds. -/
def readSnapshot : Value → Option Snapshot
  | .dict members =>
      let doc := Dict.ofPairs members
      (schemaVersionOk (doc.get "schema_version")).bind fun versionOk =>
        if versionOk && ingestOk (doc.get "ingest") then do
          let ingest ← (objectOr (doc.get "ingest")).bind (readDict readScore)
          let lists ← (objectOr (doc.get "lists")).bind readLists
          let pending ← (objectOr (doc.get "pending")).bind readLists
          let payloads ← readPayloads (doc.get "payloads")
          some ⟨ingest, lists, fun k => (pending k).toFinset, payloads⟩
        else some Snapshot.empty
  | _ => some Snapshot.empty

/-! ## What is written is read back -/

/-- The same dictionaries but for the order of their keys, the same lists and sets. -/
structure SameSnapshot (a b : Snapshot) : Prop where
  ingest : ∀ i, a.ingest.get i = b.ingest.get i
  lists : a.lists = b.lists
  pending : a.pending = b.pending
  payloads : ∀ key, (a.payloads.get key).map Dict.get = (b.payloads.get key).map Dict.get

theorem mapM_map_of_forall {α β γ : Type} {f : α → β} {g : β → Option γ} {k : α → γ}
    (h : ∀ a, g (f a) = some (k a)) (l : List α) : (l.map f).mapM g = some (l.map k) := by
  induction l with
  | nil => rfl
  | cons a l ih => simp only [List.map_cons, List.mapM_cons, h, ih, Option.bind_eq_bind, Option.bind_some,
      Option.pure_def]

theorem sortMembers_perm {β : Type} (members : List (String × β)) : (sortMembers members).Perm members :=
  List.mergeSort_perm _ _

/-- A member of an object with distinct names. -/
theorem get_sortMembers {β : Type} {members : List (String × β)} (h : (members.map Prod.fst).Nodup)
    (name : String) : (Dict.ofPairs (sortMembers members)).get name = members.lookup name :=
  get_ofPairs_of_perm (d := ⟨members, h⟩) (sortMembers_perm members) name

theorem sortMembers_map {β γ : Type} (f : β → γ) (l : List (String × β)) :
    sortMembers (l.map fun e => (e.1, f e.2)) = (sortMembers l).map fun e => (e.1, f e.2) := by
  unfold sortMembers
  rw [List.map_mergeSort (f := fun e : String × β => (e.1, f e.2))]
  exact fun _ _ _ _ => rfl

/-- **A dictionary is read back**, value by value. -/
theorem readDict_sortMembers {β γ : Type} {g : Value → Option β} {f : γ → Value} {k : γ → β}
    (h : ∀ v, g (f v) = some (k v)) (d : Dict String γ) :
    readDict g (sortMembers (d.entries.map fun e => (e.1, f e.2))) =
      some (Dict.ofPairs ((sortMembers d.entries).map fun e => (e.1, k e.2))) := by
  unfold readDict
  rw [sortMembers_map, mapM_map_of_forall (k := fun e => (e.1, k e.2))]
  · rfl
  · intro e
    rw [h, Option.map_some]

theorem get_map_sortMembers {β γ : Type} (k : β → γ) (d : Dict String β) (name : String) :
    (Dict.ofPairs ((sortMembers d.entries).map fun e => (e.1, k e.2))).get name = (d.get name).map k := by
  have hnodup : ((d.entries.map fun e => (e.1, k e.2)).map Prod.fst).Nodup := by
    rw [List.map_map]
    exact d.nodup
  rw [get_ofPairs_of_perm (d := ⟨_, hnodup⟩) ((sortMembers_perm d.entries).map _)]
  exact PyDict.lookup_map_values d.entries (fun e => k e.2) name

theorem ofText_text (kind : Kind) : Kind.ofText kind.text = some kind := by
  rcases kind with _ | k
  · rfl
  · cases k <;> rfl

theorem bar_notMem_text (kind : Kind) : '|' ∉ kind.text.toList := by
  rcases kind with _ | k
  · decide
  · cases k <;> decide

/-- The identity may hold bars itself: the key is cut at the first one. -/
theorem readKey_payloadKey (key : Kind × String) : readKey (payloadKey key) = some key := by
  obtain ⟨kind, ident⟩ := key
  have hlist : (payloadKey (kind, ident)).toList = kind.text.toList ++ '|' :: ident.toList := by
    unfold payloadKey
    rw [String.toList_append, String.toList_append]
    rfl
  have hall : ∀ c ∈ kind.text.toList, (c != '|') = true := by
    intro c hc
    rw [bne_iff_ne]
    rintro rfl
    exact bar_notMem_text kind hc
  have hbefore : beforeSep '|' (payloadKey (kind, ident)) = kind.text := by
    unfold beforeSep
    rw [hlist, List.takeWhile_append_of_pos hall, List.takeWhile_cons_of_neg (by simp), List.append_nil,
      String.ofList_toList]
  have hafter : afterSep '|' (payloadKey (kind, ident)) = ident := by
    unfold afterSep
    rw [hlist, List.dropWhile_append_of_pos hall, List.dropWhile_cons_of_neg (by simp), List.tail_cons,
      String.ofList_toList]
  unfold readKey
  rw [if_pos (by rw [hlist]; simp), hbefore, hafter, ofText_text]
  rfl

theorem payloadKey_injective : Function.Injective payloadKey := by
  intro key key' h
  have hread := readKey_payloadKey key
  rw [h, readKey_payloadKey] at hread
  exact (Option.some.inj hread).symm

/-- The fields of a payload in the order of the file. -/
def sortedFields (fields : Fields) : Fields := Dict.ofPairs (sortMembers fields.entries)

theorem get_sortedFields (fields : Fields) : (sortedFields fields).get = fields.get := by
  funext name
  exact get_ofPairs_of_perm (sortMembers_perm fields.entries) name

theorem readPayload_member (e : (Kind × String) × Fields) :
    readPayload (payloadKey e.1, fieldsObject e.2) = some [(e.1, sortedFields e.2)] := by
  have hfields := readDict_sortMembers (g := readText) (f := Json.str) (k := id) (fun _ => rfl) e.2
  have hid : (sortMembers e.2.entries).map (fun f => (f.1, id f.2)) = sortMembers e.2.entries := List.map_id _
  rw [hid] at hfields
  unfold readPayload
  rw [readKey_payloadKey]
  show (readDict readText (sortMembers (e.2.entries.map fun f => (f.1, .str f.2)))).map _ = _
  rw [hfields]
  rfl

/-- **The payloads are read back.** -/
theorem readPayloads_object (payloads : Dict (Kind × String) Fields) :
    ∃ read, readPayloads (some (sortedObject (payloads.entries.map fun e =>
        (payloadKey e.1, fieldsObject e.2)))) = some read ∧
      ∀ key, read.get key = (payloads.get key).map sortedFields := by
  -- the members in the order of the file, as keys of the store
  let sorted := payloads.entries.mergeSort fun a b => payloadKey a.1 ≤ payloadKey b.1
  have hsorted : sortMembers (payloads.entries.map fun e => (payloadKey e.1, fieldsObject e.2)) =
      sorted.map fun e => (payloadKey e.1, fieldsObject e.2) := by
    unfold sortMembers
    rw [List.map_mergeSort (f := fun e : (Kind × String) × Fields => (payloadKey e.1, fieldsObject e.2))]
    exact fun _ _ _ _ => rfl
  refine ⟨Dict.ofPairs (sorted.map fun e => (e.1, sortedFields e.2)), ?_, ?_⟩
  · show ((sortMembers _).mapM readPayload).map _ = _
    rw [hsorted, mapM_map_of_forall (k := fun e => [(e.1, sortedFields e.2)]) readPayload_member]
    have hflat : (sorted.map fun e => [(e.1, sortedFields e.2)]).flatten =
        sorted.map fun e => (e.1, sortedFields e.2) := by
      rw [← List.flatMap_def, ← List.map_eq_flatMap]
    rw [Option.map_some, hflat]
  · intro key
    have hnodup : ((payloads.entries.map fun e => (e.1, sortedFields e.2)).map Prod.fst).Nodup := by
      rw [List.map_map]
      exact payloads.nodup
    have hperm : sorted.Perm payloads.entries := List.mergeSort_perm _ _
    rw [get_ofPairs_of_perm (d := ⟨_, hnodup⟩) (hperm.map _)]
    exact PyDict.lookup_map_values payloads.entries (fun e => sortedFields e.2) key

theorem readTexts_list (texts : List String) : readTexts (some (.list (texts.map .str))) = some texts := by
  show (texts.map Json.str).mapM readText = some texts
  rw [mapM_map_of_forall (f := Json.str) (g := readText) (k := id) (fun _ => rfl), List.map_id]

/-- **The lists are read back.** -/
theorem readLists_object (lists : ListKind → List String) :
    readLists (sortMembers (listKinds.map fun k => ((Kind.list k).text, .list ((lists k).map .str)))) =
      some lists := by
  have hnodup : ((listKinds.map fun k => ((Kind.list k).text, (.list ((lists k).map .str) : Value))).map
      Prod.fst).Nodup := by
    show (["discover", "append", "day_close"] : List String).Nodup
    decide
  have hget : ∀ k, readTexts ((Dict.ofPairs (sortMembers (listKinds.map fun k =>
      ((Kind.list k).text, (.list ((lists k).map .str) : Value))))).get (Kind.list k).text) =
        some (lists k) := by
    intro k
    rw [get_sortMembers hnodup, ← readTexts_list (lists k)]
    cases k <;> rfl
  unfold readLists
  simp only [hget, Option.bind_some, Option.map_some, Option.some.injEq]
  funext k
  cases k <;> rfl

theorem get_snapshotMembers (snap : Snapshot) (name : String) :
    (Dict.ofPairs (sortMembers (snapshotMembers snap))).get name = (snapshotMembers snap).lookup name := by
  apply get_sortMembers
  show (["contract_version", "schema_version", "ingest", "lists", "pending", "payloads"] : List String).Nodup
  decide

/-- **What a flush writes, `load` reads.** -/
theorem readSnapshot_snapshotDocument (snap : Snapshot) :
    ∃ read, readSnapshot (snapshotDocument snap) = some read ∧ SameSnapshot read snap := by
  obtain ⟨payloads, hpayloads, hget⟩ := readPayloads_object snap.payloads
  have hscores := readDict_sortMembers (g := readScore) (f := fun x => .float (.fin x)) (k := id)
    (fun _ => rfl) snap.ingest
  have hpending := readLists_object fun k => (snap.pending k).sort (· ≤ ·)
  refine ⟨⟨Dict.ofPairs ((sortMembers snap.ingest.entries).map fun e => (e.1, id e.2)), snap.lists,
    fun k => ((snap.pending k).sort (· ≤ ·)).toFinset, payloads⟩, ?_, ?_, rfl, ?_, ?_⟩
  · show readSnapshot (.dict (sortMembers (snapshotMembers snap))) = _
    unfold readSnapshot
    simp only [get_snapshotMembers]
    show ((readDict readScore _).bind fun ingest => (readLists _).bind fun lists =>
      (readLists _).bind fun pending => (readPayloads _).bind fun payloads => _) = _
    rw [hscores, readLists_object, hpending]
    show (readPayloads (some (sortedObject _))).bind _ = _
    rw [hpayloads]
    rfl
  · intro i
    show (Dict.ofPairs _).get i = _
    rw [get_map_sortMembers, Option.map_id]
    rfl
  · funext k
    exact Finset.sort_toFinset _ _
  · intro key
    show (payloads.get key).map Dict.get = _
    rw [hget, Option.map_map]
    congr 1
    funext fields
    exact get_sortedFields fields

end JobStore
