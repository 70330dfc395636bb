/-
WaveSpan.Records.Holders — which members hold a key
(`internal/replication/local/holder_dir.go`, `fanout.go`'s `capTarget`).

The directory is a node's memory of who has a durable copy of a key, and at which version.
A key is filed under its namespace, a zero byte and the key (`keyID`).

`Holders` and `Count` give the members of a key's entry and how many they are; the version
filed with a member is not looked at.
-/
import WaveSpan.Lib.Rows
import WaveSpan.Membership.Roster
import WaveSpan.Records.Version

namespace WaveSpan.Records

open WaveSpan.Wire WaveSpan.Collections WaveSpan.Membership

/-! ## Ids of keys -/

def keyID (ns key : Bytes) : Bytes := ns ++ 0 :: key

/-! ## The directory -/

/-- The holders of each key id, with the version each is known to hold. -/
structure HolderDirectory where
  holders : GoMap (GoMap Version) := ∅

namespace HolderDirectory

def entry (d : HolderDirectory) (ns key : Bytes) : GoMap Version :=
  d.holders[keyID ns key]?.getD ∅

def recordHolder (d : HolderDirectory) (ns key member : Bytes) (v : Version) : HolderDirectory :=
  { holders := d.holders.insert (keyID ns key) ((d.entry ns key).insert member v) }

def holdersOf (d : HolderDirectory) (ns key : Bytes) : List Bytes := (d.entry ns key).keys

def count (d : HolderDirectory) (ns key : Bytes) : Nat := (d.entry ns key).size

variable (d : HolderDirectory) (ns key member : Bytes) (v : Version)

theorem length_holdersOf : (d.holdersOf ns key).length = d.count ns key :=
  Std.ExtTreeMap.length_keys

theorem nodup_holdersOf : (d.holdersOf ns key).Nodup := by
  refine (Std.ExtTreeMap.distinct_keys (t := d.entry ns key)).imp fun {a b} h heq => h ?_
  rw [heq]
  exact Std.ReflCmp.compare_self

variable {d ns key member v}

/-- Recording a holder adds it. -/
theorem mem_holdersOf_recordHolder {m : Bytes} :
    m ∈ (d.recordHolder ns key member v).holdersOf ns key ↔
      m = member ∨ m ∈ d.holdersOf ns key := by
  simp only [holdersOf, entry, recordHolder, Std.ExtTreeMap.getElem?_insert_self, Option.getD_some,
    Std.ExtTreeMap.mem_keys, Std.ExtTreeMap.mem_insert]
  constructor
  · rintro (h | h)
    · exact .inl (Std.LawfulEqCmp.eq_of_compare h).symm
    · exact .inr h
  · rintro (rfl | h)
    · exact .inl Std.ReflCmp.compare_self
    · exact .inr h

theorem count_recordHolder (h : member ∉ d.holdersOf ns key) :
    (d.recordHolder ns key member v).count ns key = d.count ns key + 1 := by
  have hnew : member ∉ d.entry ns key := fun hmem => h (Std.ExtTreeMap.mem_keys.mpr hmem)
  simp [count, entry, recordHolder, Std.ExtTreeMap.size_insert] at hnew ⊢
  exact hnew

end HolderDirectory

/-! ## The target -/

def aliveMemberCount (members : List MemberView) : Nat :=
  members.countP fun m => m.state = .alive

/-- A target is at most the number of alive members. -/
def capTarget (target : Int) (members : List MemberView) : Int :=
  if (aliveMemberCount members : Int) < target then aliveMemberCount members else target

end WaveSpan.Records
