import EbnAnchor.Core.Mem
import Mathlib.Data.Finset.Card
import Mathlib.Data.Finset.Insert
import Mathlib.Logic.Function.Basic

/-!
The stores keyed by a Bluetooth address: `connection_for_address` of `hci.c` and the link
keys of `remote_device_db_memory.c`, over `linked_list.c` and `memory_pool.c`.

A linked list is the list of the pointers to its items, and `storage` holds the record
behind a pointer.

* `liveKeys_eq_some_iff`: the store a sequence of calls describes;
* `deviceDb_right_iff`: a lookup is right exactly in an empty list, and a sequence of
  calls reads back what was put exactly when nothing is put.
-/

namespace EbnAnchor.Stack

/-! ### Records -/

abbrev bdAddrLen : Nat := 6
abbrev linkKeyLen : Nat := 16
abbrev maxNoDbMemDeviceLinkKeys : Nat := 2

/-- `bd_addr_t`. -/
abbrev BdAddr := Vector Byte bdAddrLen

/-- `link_key_t`. -/
abbrev LinkKey := Vector Byte linkKeyLen

/-- `db_mem_device_link_key_t`. -/
structure DbMemDeviceLinkKey where
  bdAddr : BdAddr
  linkKey : LinkKey

/-- `CONNECTION_STATE`, the states the firmware reaches. -/
inductive ConnectionState where
  | receivedConnectionRequest
  | acceptedConnectionRequest
  | opened
  deriving DecidableEq

/-- `hci_connection_t`. -/
structure HciConnection where
  address : BdAddr
  conHandle : BitVec 16
  state : ConnectionState
  authenticationFlags : Byte
  aclRecombinationPos : BitVec 16
  aclRecombinationLength : BitVec 16
  numAclPacketsSent : Byte

/-- A connection as `create_connection_for_addr` fills it in; its callers set the state. -/
def HciConnection.created (addr : BdAddr) (state : ConnectionState) : HciConnection where
  address := addr
  conHandle := 0xffff
  state := state
  authenticationFlags := 0
  aclRecombinationPos := 0
  aclRecombinationLength := 0
  numAclPacketsSent := 0

/-! ### Comparing and finding -/

/-- `BD_ADDR_CMP`. -/
def bdAddrCmp (a b : BdAddr) : Word :=
  memcmp (fun i => a[i]?.getD 0) (fun i => b[i]?.getD 0) bdAddrLen

theorem bdAddrCmp_eq_zero_iff (a b : BdAddr) : bdAddrCmp a b = 0 ↔ a ≠ b := by
  rw [bdAddrCmp, memcmp_eq_zero_iff]
  constructor
  · rintro ⟨i, -, hne⟩ rfl
    exact hne rfl
  · intro hne
    by_contra hall
    push Not at hall
    refine hne (Vector.ext fun i hi => ?_)
    have heq := hall i hi
    rwa [Vector.getElem?_eq_getElem hi, Vector.getElem?_eq_getElem hi] at heq

section Lookup

variable {ρ : Type*}

/-- The loop of both lookups: the first item whose address compares as 0. -/
def firstMatch (address : ρ → BdAddr) (a : BdAddr) : List ρ → Option ρ
  | [] => none
  | it :: next => if bdAddrCmp (address it) a = 0 then some it else firstMatch address a next

/-- `connection_for_address` on the list `hci_stack.connections`. -/
def connectionForAddress (connections : List HciConnection) (a : BdAddr) :
    Option HciConnection :=
  firstMatch HciConnection.address a connections

/-- `get_item`; `bdAddr` reads the address of an item. -/
def getItem (bdAddr : ρ → BdAddr) (list : List ρ) (a : BdAddr) : Option ρ :=
  firstMatch bdAddr a list

/-- What a lookup by address is for. -/
structure IsLookup (address : ρ → BdAddr) (list : List ρ) (a : BdAddr) (found : Option ρ) :
    Prop where
  present : ∀ it ∈ list, address it = a → found = some it
  absent : (∀ it ∈ list, address it ≠ a) → found = none

theorem firstMatch_ne {address : ρ → BdAddr} {a : BdAddr} {list : List ρ} {it : ρ}
    (h : firstMatch address a list = some it) : address it ≠ a := by
  induction list with
  | nil => cases h
  | cons head next ih =>
    rw [firstMatch] at h
    by_cases hcmp : bdAddrCmp (address head) a = 0
    · rw [if_pos hcmp] at h
      cases h
      exact (bdAddrCmp_eq_zero_iff _ _).mp hcmp
    · rw [if_neg hcmp] at h
      exact ih h

theorem firstMatch_cons {address : ρ → BdAddr} {a : BdAddr} {head : ρ} {next : List ρ}
    (h : address head ≠ a) : firstMatch address a (head :: next) = some head := by
  rw [firstMatch, if_pos ((bdAddrCmp_eq_zero_iff _ _).mpr h)]

/-- The lookup answers with an item that does not match, so it is right only where there
is no item to answer with. -/
theorem isLookup_firstMatch_iff (address : ρ → BdAddr) (list : List ρ) (a : BdAddr) :
    IsLookup address list a (firstMatch address a list) ↔ list = [] := by
  constructor
  · intro h
    cases list with
    | nil => rfl
    | cons head next =>
      by_cases hmem : ∃ it ∈ head :: next, address it = a
      · obtain ⟨it, hit, heq⟩ := hmem
        exact absurd heq (firstMatch_ne (h.present it hit heq))
      · push Not at hmem
        have hfound := h.absent hmem
        rw [firstMatch_cons (hmem head (List.mem_cons_self ..))] at hfound
        cases hfound
  · rintro rfl
    exact ⟨fun it hit => absurd hit List.not_mem_nil, fun _ => rfl⟩

end Lookup

/-! ### `linked_list.c` and `memory_pool.c` -/

/-- `linked_list_add`. -/
def linkedListAdd (list : List Nat) (item : Nat) : List Nat :=
  if item ∈ list then list else item :: list

/-- `linked_list_remove`. -/
def linkedListRemove (list : List Nat) (item : Nat) : List Nat := list.erase item

/-- `linked_list_get_last_item`. -/
def linkedListGetLastItem (list : List Nat) : Option Nat := list.getLast?

/-- `memory_pool_get`: the block and the blocks left. -/
def memoryPoolGet : List Nat → Option Nat × List Nat
  | [] => (none, [])
  | node :: next => (some node, next)

/-- `memory_pool_free`. -/
def memoryPoolFree (pool : List Nat) (block : Nat) : List Nat := block :: pool

/-- `memory_pool_create`: the blocks are freed one after the other. -/
def memoryPoolCreate (count : Nat) : List Nat := (List.range count).foldl memoryPoolFree []

/-! ### `remote_device_db_memory.c` -/

/-- The link key records, the list of those in use and the pool of the others. -/
structure LinkKeyDb where
  storage : Nat → DbMemDeviceLinkKey
  dbMemLinkKeys : List Nat
  pool : List Nat

/-- The database after `btstack_memory_init`: the storage is zeroed. -/
def LinkKeyDb.init : LinkKeyDb where
  storage := fun _ => ⟨Vector.replicate _ 0, Vector.replicate _ 0⟩
  dbMemLinkKeys := []
  pool := memoryPoolCreate maxNoDbMemDeviceLinkKeys

/-- `get_item(db_mem_link_keys, bd_addr)`. -/
def LinkKeyDb.item (db : LinkKeyDb) (bdAddr : BdAddr) : Option Nat :=
  getItem (fun it => (db.storage it).bdAddr) db.dbMemLinkKeys bdAddr

/-- `get_link_key`: the key it writes, or nothing when it returns 0. -/
def getLinkKey (bdAddr : BdAddr) (db : LinkKeyDb) : Option LinkKey × LinkKeyDb :=
  match db.item bdAddr with
  | none => (none, db)
  | some item =>
    (some (db.storage item).linkKey,
      { db with dbMemLinkKeys := linkedListAdd (linkedListRemove db.dbMemLinkKeys item) item })

def deleteLinkKey (bdAddr : BdAddr) (db : LinkKeyDb) : LinkKeyDb :=
  match db.item bdAddr with
  | none => db
  | some item =>
    { db with
      dbMemLinkKeys := linkedListRemove db.dbMemLinkKeys item
      pool := memoryPoolFree db.pool item }

def putLinkKey (bdAddr : BdAddr) (linkKey : LinkKey) (db : LinkKeyDb) : LinkKeyDb :=
  match db.item bdAddr with
  | some existingRecord =>
    { db with
      storage := Function.update db.storage existingRecord
        { db.storage existingRecord with linkKey := linkKey } }
  | none =>
    let (newItem, pool) := memoryPoolGet db.pool
    -- an empty pool gives up the last record of the list
    match newItem <|> linkedListGetLastItem db.dbMemLinkKeys with
    | none => { db with pool := pool }
    | some newItem =>
      { storage := Function.update db.storage newItem ⟨bdAddr, linkKey⟩
        dbMemLinkKeys := linkedListAdd db.dbMemLinkKeys newItem
        pool := pool }

/-! ### Sequences of calls -/

inductive DbCall
  | put (bdAddr : BdAddr) (linkKey : LinkKey)
  | get (bdAddr : BdAddr)
  | delete (bdAddr : BdAddr)

def DbCall.run (db : LinkKeyDb) : DbCall → LinkKeyDb
  | put bdAddr linkKey => putLinkKey bdAddr linkKey db
  | get bdAddr => (getLinkKey bdAddr db).2
  | delete bdAddr => deleteLinkKey bdAddr db

def dbRun (calls : List DbCall) : LinkKeyDb := calls.foldl DbCall.run .init

/-- The store the calls describe, a map from addresses to keys. -/
def DbCall.effect (keys : BdAddr → Option LinkKey) : DbCall → BdAddr → Option LinkKey
  | put bdAddr linkKey => Function.update keys bdAddr (some linkKey)
  | get _ => keys
  | delete bdAddr => Function.update keys bdAddr none

def liveKeys (calls : List DbCall) : BdAddr → Option LinkKey :=
  calls.foldl DbCall.effect fun _ => none

/-- At no time are more addresses in the store than the pool has records. -/
def WithinPool (calls : List DbCall) : Prop :=
  ∀ first, first <+: calls → ∀ addresses : Finset BdAddr,
    (∀ a ∈ addresses, liveKeys first a ≠ none) → addresses.card ≤ maxNoDbMemDeviceLinkKeys

/-- `get_link_key` reads back what the calls before it describe. -/
def ReadsBack (calls : List DbCall) (a : BdAddr) : Prop :=
  (getLinkKey a (dbRun calls)).1 = liveKeys calls a

theorem dbRun_append (calls : List DbCall) (call : DbCall) :
    dbRun (calls ++ [call]) = call.run (dbRun calls) := by
  rw [dbRun, List.foldl_append, List.foldl_cons, List.foldl_nil, dbRun]

theorem liveKeys_append (calls : List DbCall) (call : DbCall) :
    liveKeys (calls ++ [call]) = call.effect (liveKeys calls) := by
  rw [liveKeys, List.foldl_append, List.foldl_cons, List.foldl_nil, liveKeys]

/-- The latest put for `a`, not followed by a delete for `a`, stored `k`. -/
def LatestPut (calls : List DbCall) (a : BdAddr) (k : LinkKey) : Prop :=
  ∃ before after, calls = before ++ DbCall.put a k :: after ∧
    (∀ k', DbCall.put a k' ∉ after) ∧ DbCall.delete a ∉ after

theorem latestPut_append (calls : List DbCall) (call : DbCall) (a : BdAddr) (k : LinkKey) :
    LatestPut (calls ++ [call]) a k ↔ call = .put a k ∨
      (LatestPut calls a k ∧ (∀ k', call ≠ .put a k') ∧ call ≠ .delete a) := by
  constructor
  · rintro ⟨before, after, heq, hputs, hdeletes⟩
    rcases List.eq_nil_or_concat' after with rfl | ⟨after, last, rfl⟩
    · exact Or.inl (List.singleton_inj.mp (List.append_inj' heq rfl).2)
    · rw [← List.cons_append, ← List.append_assoc] at heq
      obtain ⟨rfl, hlast⟩ := List.append_inj' heq rfl
      cases hlast
      have hmem : call ∈ after ++ [call] :=
        List.mem_append_right _ (List.mem_singleton_self _)
      refine Or.inr ⟨⟨before, after, rfl, fun k' h => hputs k' (List.mem_append_left _ h),
        fun h => hdeletes (List.mem_append_left _ h)⟩, fun k' h => ?_, fun h => ?_⟩
      · exact hputs k' (h ▸ hmem)
      · exact hdeletes (h ▸ hmem)
  · rintro (rfl | ⟨⟨before, after, rfl, hputs, hdeletes⟩, hput, hdelete⟩)
    · exact ⟨calls, [], rfl, fun _ => List.not_mem_nil, List.not_mem_nil⟩
    · refine ⟨before, after ++ [call], by simp, fun k' h => ?_, fun h => ?_⟩
      · rcases List.mem_append.mp h with h | h
        · exact hputs k' h
        · exact hput k' (List.mem_singleton.mp h).symm
      · rcases List.mem_append.mp h with h | h
        · exact hdeletes h
        · exact hdelete (List.mem_singleton.mp h).symm

/-- What the map holds under an address is the key of the latest call that put one there,
if no call deleted it since. -/
theorem liveKeys_eq_some_iff (calls : List DbCall) (a : BdAddr) (k : LinkKey) :
    liveKeys calls a = some k ↔ LatestPut calls a k := by
  induction calls using List.reverseRecOn with
  | nil =>
    constructor
    · intro h
      cases h
    · rintro ⟨before, after, h, -⟩
      exact absurd h.symm (by simp)
  | append_singleton calls call ih =>
    rw [liveKeys_append, latestPut_append, ← ih]
    cases call with
    | get b => simp [DbCall.effect]
    | put b k' =>
      by_cases hb : b = a
      · subst hb
        simp [DbCall.effect]
      · simp [DbCall.effect, Function.update_of_ne (Ne.symm hb), hb]
    | delete b =>
      by_cases hb : b = a
      · subst hb
        simp [DbCall.effect]
      · simp [DbCall.effect, Function.update_of_ne (Ne.symm hb), hb]

/-! ### Reading back -/

theorem getLinkKey_nil {db : LinkKeyDb} (h : db.dbMemLinkKeys = []) (a : BdAddr) :
    getLinkKey a db = (none, db) := by
  simp only [getLinkKey, LinkKeyDb.item, h, getItem, firstMatch]

theorem deleteLinkKey_nil {db : LinkKeyDb} (h : db.dbMemLinkKeys = []) (a : BdAddr) :
    deleteLinkKey a db = db := by
  simp only [deleteLinkKey, LinkKeyDb.item, h, getItem, firstMatch]

/-- With a record in the list, every address but that record's reads something. -/
theorem getLinkKey_cons {db : LinkKeyDb} {head : Nat} {next : List Nat}
    (h : db.dbMemLinkKeys = head :: next) {a : BdAddr} (ha : (db.storage head).bdAddr ≠ a) :
    (getLinkKey a db).1 = some (db.storage head).linkKey := by
  have hitem : db.item a = some head := by
    rw [LinkKeyDb.item, h]
    exact firstMatch_cons ha
  simp only [getLinkKey, hitem]

/-- Without a put, nothing is stored, and nothing should be. -/
theorem dbRun_noPut {calls : List DbCall} (h : ∀ a k, DbCall.put a k ∉ calls) :
    dbRun calls = .init ∧ liveKeys calls = fun _ => none := by
  induction calls using List.reverseRecOn with
  | nil => exact ⟨rfl, rfl⟩
  | append_singleton calls call ih =>
    obtain ⟨hrun, hlive⟩ := ih fun a k hmem => h a k (List.mem_append_left _ hmem)
    rw [dbRun_append, liveKeys_append, hrun, hlive]
    cases call with
    | put a k => exact absurd (by simp) (h a k)
    | get a => exact ⟨by rw [DbCall.run, getLinkKey_nil rfl], rfl⟩
    | delete a =>
      refine ⟨by rw [DbCall.run, deleteLinkKey_nil rfl], ?_⟩
      exact Function.update_eq_self a fun _ => none

/-- The first put of a sequence leads to one record, under its address. -/
theorem dbRun_firstPut {calls : List DbCall} (h : ∀ a k, DbCall.put a k ∉ calls) (a : BdAddr)
    (k : LinkKey) :
    (getLinkKey a (dbRun (calls ++ [.put a k]))).1 = none ∧
      liveKeys (calls ++ [.put a k]) a = some k := by
  obtain ⟨hrun, hlive⟩ := dbRun_noPut h
  constructor
  · rw [dbRun_append, hrun]
    have hput : putLinkKey a k .init =
        ⟨Function.update LinkKeyDb.init.storage 1 ⟨a, k⟩, [1], [0]⟩ := rfl
    have hcmp : bdAddrCmp a a ≠ 0 := fun hzero => (bdAddrCmp_eq_zero_iff a a).mp hzero rfl
    simp only [DbCall.run, hput, getLinkKey, LinkKeyDb.item, getItem, firstMatch,
      Function.update_self, if_neg hcmp]
  · rw [liveKeys_append, DbCall.effect, Function.update_self]

/-- Some address is neither `a` nor in the store. -/
theorem WithinPool.exists_unused {calls : List DbCall} (h : WithinPool calls) (a : BdAddr) :
    ∃ b, b ≠ a ∧ liveKeys calls b = none := by
  -- more addresses than the store and `a` account for
  let all : Finset BdAddr :=
    (Finset.range 4).image fun i => Vector.replicate bdAddrLen (BitVec.ofNat 8 i)
  by_contra hnone
  push Not at hnone
  have hcard := h calls List.prefix_rfl (all.erase a) fun b hb =>
    hnone b (Finset.ne_of_mem_erase hb)
  have hall : all.card = 4 := by decide
  have hfew : all.card - 1 ≤ (all.erase a).card := Finset.pred_card_le_card_erase
  have htwo : maxNoDbMemDeviceLinkKeys = 2 := rfl
  omega

/-- Calls that put keys for few addresses stay within the pool. -/
theorem withinPool_of_puts {calls : List DbCall} (addresses : Finset BdAddr)
    (hcard : addresses.card ≤ maxNoDbMemDeviceLinkKeys)
    (h : ∀ a k, DbCall.put a k ∈ calls → a ∈ addresses) : WithinPool calls := by
  intro first hinit live hlive
  refine le_trans (Finset.card_le_card fun a ha => ?_) hcard
  obtain ⟨k, hk⟩ := Option.ne_none_iff_exists'.mp (hlive a ha)
  obtain ⟨before, after, rfl, -⟩ := (liveKeys_eq_some_iff first a k).mp hk
  exact h a k (hinit.subset (by simp))

/-- After a sequence of calls every address reads back exactly when nothing is stored and
nothing should be. -/
theorem readsBack_iff {calls : List DbCall} (h : WithinPool calls) :
    (∀ a, ReadsBack calls a) ↔
      (dbRun calls).dbMemLinkKeys = [] ∧ ∀ a, liveKeys calls a = none := by
  constructor
  · intro hback
    cases hlist : (dbRun calls).dbMemLinkKeys with
    | nil =>
      refine ⟨rfl, fun a => ?_⟩
      have ha := hback a
      rw [ReadsBack, getLinkKey_nil hlist] at ha
      exact ha.symm
    | cons head next =>
      obtain ⟨b, hne, hnone⟩ := h.exists_unused ((dbRun calls).storage head).bdAddr
      have hb := hback b
      rw [ReadsBack, getLinkKey_cons hlist hne.symm, hnone] at hb
      cases hb
  · rintro ⟨hlist, hnone⟩ a
    rw [ReadsBack, getLinkKey_nil hlist, hnone a]

/-- All along a sequence of calls every address reads back exactly when the sequence puts
nothing. -/
theorem readsBack_throughout_iff (calls : List DbCall) :
    (∀ first, first <+: calls → ∀ a, ReadsBack first a) ↔ ∀ a k, DbCall.put a k ∉ calls := by
  constructor
  · intro hback
    induction calls using List.reverseRecOn with
    | nil => exact fun _ _ => List.not_mem_nil
    | append_singleton calls call ih =>
      have hnone := ih fun first hinit => hback first (hinit.trans (List.prefix_append ..))
      intro a k hmem
      rcases List.mem_append.mp hmem with hmem | hmem
      · exact hnone a k hmem
      · obtain ⟨hread, hlive⟩ := dbRun_firstPut hnone a k
        have hlast := hback _ List.prefix_rfl a
        rw [ReadsBack, ← List.mem_singleton.mp hmem, hread, hlive] at hlast
        cases hlast
  · intro hnone first hinit a
    obtain ⟨hrun, hlive⟩ := dbRun_noPut fun a k hmem => hnone a k (hinit.subset hmem)
    rw [ReadsBack, hrun, hlive, getLinkKey_nil rfl]

/-- The lookups answer with the record of the address exactly in the empty list. The link
keys read back right after a sequence of calls exactly when no record is in use and none
should be, and all along a sequence exactly when it puts nothing. -/
theorem deviceDb_right_iff (connections : List HciConnection)
    (records : Nat → DbMemDeviceLinkKey) (list : List Nat) (a : BdAddr) {calls : List DbCall}
    (hpool : WithinPool calls) :
    (IsLookup HciConnection.address connections a (connectionForAddress connections a) ↔
      connections = []) ∧
    (IsLookup (fun it => (records it).bdAddr) list a
      (getItem (fun it => (records it).bdAddr) list a) ↔ list = []) ∧
    ((∀ b, ReadsBack calls b) ↔
      (dbRun calls).dbMemLinkKeys = [] ∧ ∀ b, liveKeys calls b = none) ∧
    ((∀ first, first <+: calls → ∀ b, ReadsBack first b) ↔ ∀ b k, DbCall.put b k ∉ calls) := by
  refine ⟨?_, ?_, readsBack_iff hpool, readsBack_throughout_iff calls⟩
  · exact isLookup_firstMatch_iff HciConnection.address connections a
  · exact isLookup_firstMatch_iff (fun it => (records it).bdAddr) list a

/-- One put stays within the pool, and does not read back. -/
theorem deviceDb_right_one_put :
    ∃ a, ¬ ReadsBack [.put (Vector.replicate _ 0x11) (Vector.replicate _ 0x22)] a := by
  have hpool : WithinPool [.put (Vector.replicate _ 0x11) (Vector.replicate _ 0x22)] :=
    withinPool_of_puts {Vector.replicate _ 0x11} (by decide) fun a k hmem => by
      cases List.mem_singleton.mp hmem
      exact Finset.mem_singleton_self _
  have hright := deviceDb_right_iff [] (fun _ => ⟨Vector.replicate _ 0, Vector.replicate _ 0⟩) []
    (Vector.replicate _ 0x11) hpool
  by_contra hback
  push Not at hback
  have hlive := (hright.2.2.1.mp hback).2 (Vector.replicate _ 0x11)
  rw [liveKeys, List.foldl_cons, List.foldl_nil, DbCall.effect, Function.update_self] at hlive
  cases hlive

/-- The only connection is not found under its own address, and found under another one;
a link key that was put is not found, and found under another address. -/
theorem lookups_answer_other_addresses :
    let a : BdAddr := Vector.replicate _ 0x11
    let b : BdAddr := Vector.replicate _ 0x33
    let k : LinkKey := Vector.replicate _ 0x22
    let connection : HciConnection := .created a .opened
    connectionForAddress [connection] a = none ∧
      connectionForAddress [connection] b = some connection ∧
      liveKeys [.put a k] a = some k ∧ (getLinkKey a (dbRun [.put a k])).1 = none ∧
      liveKeys [.put a k] b = none ∧ (getLinkKey b (dbRun [.put a k])).1 = some k := by
  refine ⟨rfl, rfl, rfl, rfl, ?_, rfl⟩
  decide

end EbnAnchor.Stack
