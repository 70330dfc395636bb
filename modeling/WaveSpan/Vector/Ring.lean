/-
WaveSpan.Vector.Ring — the members that hold a bucket (`internal/vector/ring.go`).

A bucket is on the `n` members with the highest weight, a hash of the bucket's key and the member's
id. Members are told apart by their ids, so weight and id put them in one order whatever the list
they come in (`leads_iff`), and the ring is the first `n` of that order (`WaveSpan.Best`).

A bucket's key is `collection/version/bucket`. The collection may have the separator in it, the two
numbers do not, so the key is read from the right.
-/
import WaveSpan.Lib.Best
import WaveSpan.Records.Version
import WaveSpan.Vector.TopK

namespace WaveSpan.Vector

open WaveSpan.Wire WaveSpan.Best
open WaveSpan.Records (formatUint formatUint_inj)

structure Scored where
  id : Bytes
  score : UInt64
deriving DecidableEq

/-- A member's weight for a bucket; `sum` is the hash of what is written to it. -/
def hrw (sum : Bytes → UInt64) (bucketKey member : Bytes) : UInt64 :=
  sum (bucketKey ++ [0x00] ++ member)

/-- The comparison the members are sorted by: highest weight first, then by id. -/
def ahead (a b : Scored) : Bool :=
  if a.score ≠ b.score then decide (b.score < a.score) else decide (compare a.id b.id = .lt)

def Leads (a b : Scored) : Prop := ahead b a = false

instance : DecidableRel Leads := fun _ _ => inferInstanceAs (Decidable (_ = false))

def ring (sum : Bytes → UInt64) (bucketKey : Bytes) (memberIDs : List Bytes)
    (n : Int) : List Bytes :=
  if n ≤ 0 ∨ memberIDs = [] then []
  else
    let ss := memberIDs.map fun id => { id, score := hrw sum bucketKey id : Scored }
    ((ss.insertionSort Leads).take (min n.toNat ss.length)).map Scored.id

def bucketKey (collection : Bytes) (qver bucket : UInt32) : Bytes :=
  collection ++ [0x2f] ++ formatUint qver.toUInt64 ++ [0x2f] ++ formatUint bucket.toUInt64

/-! ## The order of the members -/

/-- A member as a hit that is nearer the higher its weight. -/
def Scored.hit (a : Scored) : Candidate ℕᵒᵈ :=
  { id := a.id, distance := OrderDual.toDual a.score.toNat }

theorem leads_iff {a b : Scored} : Leads a b ↔ Before a.hit b.hit := by
  by_cases h : b.score = a.score
  · simp [Leads, Before, ahead, nearer, Distances.ofOrder, Scored.hit, h]
  · simp [Leads, Before, ahead, nearer, Distances.ofOrder, Scored.hit, h, UInt64.toNat_inj,
      UInt64.lt_iff_toNat_lt]

instance : Std.Total Leads where
  total a b := by
    rw [leads_iff, leads_iff]
    exact Std.Total.total a.hit b.hit

instance : IsTrans Scored Leads where
  trans a b c hab hbc := by
    rw [leads_iff] at *
    exact IsTrans.trans _ _ _ hab hbc

instance : Std.Antisymm Leads where
  antisymm a b hab hba := by
    have heq := (leads_iff.mp hab).antisymm (leads_iff.mp hba)
    cases a
    cases b
    simpa [Scored.hit, UInt64.toNat_inj] using heq

/-! ## The ring -/

section
variable (sum : Bytes → UInt64) (key : Bytes)

def weigh (id : Bytes) : Scored := { id, score := hrw sum key id }

theorem weigh_injective : Function.Injective (weigh sum key) := fun _ _ h => congrArg Scored.id h

/-- The ring is the best `n`. -/
theorem ring_eq (ids : List Bytes) (n : Int) :
    ring sum key ids n = (best Leads n.toNat (ids.map (weigh sum key))).map Scored.id := by
  rw [ring, best]
  split
  · rename_i h
    rcases h with h | rfl
    · rw [Int.toNat_of_nonpos h, List.take_zero, List.map_nil]
    · simp
  · show ((_ : List Scored).take _).map _ = _
    rw [← List.length_insertionSort Leads, List.take_eq_take_min (i := n.toNat)]
    rfl

/-- The ring is the front of the members in some order. -/
theorem ring_eq_take (ids : List Bytes) (n : Int) :
    ∃ l : List Bytes, l.Perm ids ∧ ring sum key ids n = l.take n.toNat := by
  refine ⟨((ids.map (weigh sum key)).insertionSort Leads).map Scored.id, ?_, ?_⟩
  · simpa [Function.comp_def, weigh] using
      (List.perm_insertionSort Leads (ids.map (weigh sum key))).map Scored.id
  · rw [ring_eq, best, List.map_take]

variable {sum key} {ids ids' : List Bytes} {x : Bytes} {n : Int}

/-- A ring does not depend on the order of its members. -/
theorem ring_perm (h : ids'.Perm ids) : ring sum key ids' n = ring sum key ids n := by
  rw [ring_eq, ring_eq, best, best, insertionSort_perm Leads (h.map _)]

/-- One more member of a ring. -/
theorem ring_insert (h : ids'.Perm (x :: ids)) :
    ring sum key ids' n = ring sum key ids n ∨
      ∃ pre post, ring sum key ids n = pre ++ post ∧
        (ring sum key ids' n = pre ++ x :: post ∨
          ring sum key ids' n = pre ++ x :: post.dropLast) := by
  rw [ring_eq, ring_eq]
  rcases best_insert Leads (n := n.toNat) (h.map (weigh sum key)) with heq | ⟨pre, post, hl, hl'⟩
  · exact .inl (by rw [heq])
  · refine .inr ⟨pre.map Scored.id, post.map Scored.id, by rw [hl, List.map_append], ?_⟩
    refine hl'.imp (fun h => ?_) (fun h => ?_)
    · rw [h, List.map_append]
      rfl
    · rw [h, List.map_append, List.map_cons, List.map_dropLast]
      rfl

/-- A member outside a ring is not missed. -/
theorem ring_erase (h : x ∉ ring sum key ids n) :
    ring sum key (ids.erase x) n = ring sum key ids n := by
  rw [ring_eq] at h
  have hout : weigh sum key x ∉ best Leads n.toNat (ids.map (weigh sum key)) :=
    fun hmem => h (List.mem_map_of_mem hmem)
  rw [ring_eq, ring_eq, List.map_erase (weigh_injective sum key), best_erase Leads hout]

end

/-! ## Keys of buckets -/

/-- A decimal has no separator in it. -/
theorem notMem_formatUint (n : UInt64) : (0x2f : UInt8) ∉ formatUint n := by
  rw [formatUint]
  split
  · decide
  · intro hmem
    obtain ⟨d, hd, hsep⟩ := List.mem_map.mp hmem
    have hlt : d < 10 := Nat.digits_lt_base (by omega) (List.mem_reverse.mp hd)
    have hval := congrArg UInt8.toNat hsep
    rw [UInt8.toNat_add, UInt8.toNat_ofNat'] at hval
    have : (48 + d % 2 ^ 8) % 2 ^ 8 = 47 := hval
    omega

theorem bucketKey_inj {c c' : Bytes} {v v' b b' : UInt32} :
    bucketKey c v b = bucketKey c' v' b' ↔ c = c' ∧ v = v' ∧ b = b' := by
  refine ⟨fun h => ?_, fun ⟨hc, hv, hb⟩ => by rw [hc, hv, hb]⟩
  have hsplit : ∀ (s t : Bytes), s ++ [0x2f] ++ t = s ++ 0x2f :: t := by simp
  rw [bucketKey, bucketKey, hsplit _ (formatUint b.toUInt64),
    hsplit _ (formatUint b'.toUInt64)] at h
  obtain ⟨hleft, hb⟩ := append_last_sep_inj (notMem_formatUint _) (notMem_formatUint _) h
  rw [hsplit, hsplit] at hleft
  obtain ⟨hc, hv⟩ := append_last_sep_inj (notMem_formatUint _) (notMem_formatUint _) hleft
  exact ⟨hc, UInt32.toUInt64_inj.mp (formatUint_inj.mp hv),
    UInt32.toUInt64_inj.mp (formatUint_inj.mp hb)⟩

/-- The members of a ring do not depend on the order of the list, and move as little as can be: one
more member takes one place at most, and one that held none is not missed. -/
theorem ring_moves_minimally (sum : Bytes → UInt64) :
    (∀ (key : Bytes) (n : Int) (ids : List Bytes), ids.Nodup →
      (ring sum key ids n).length = min n.toNat ids.length ∧ (ring sum key ids n).Nodup ∧
      ring sum key ids n ⊆ ids ∧
      (∀ ids', ids'.Perm ids → ring sum key ids' n = ring sum key ids n) ∧
      (∀ x ids', x ∉ ids → ids'.Perm (x :: ids) →
        ring sum key ids' n = ring sum key ids n ∨
          ∃ pre post, ring sum key ids n = pre ++ post ∧
            (ring sum key ids' n = pre ++ x :: post ∨
              ring sum key ids' n = pre ++ x :: post.dropLast)) ∧
      ∀ x, x ∉ ring sum key ids n → ring sum key (ids.erase x) n = ring sum key ids n) ∧
    ∀ (c c' : Bytes) (v v' b b' : UInt32),
      bucketKey c v b = bucketKey c' v' b' ↔ c = c' ∧ v = v' ∧ b = b' := by
  refine ⟨fun key n ids hd => ?_, fun _ _ _ _ _ _ => bucketKey_inj⟩
  obtain ⟨l, hl, hring⟩ := ring_eq_take sum key ids n
  refine ⟨?_, ?_, ?_, fun _ => ring_perm, fun _ _ _ => ring_insert, fun _ => ring_erase⟩
  · rw [hring, List.length_take, hl.length_eq]
  · rw [hring]
    exact (hl.nodup_iff.mpr hd).sublist (List.take_sublist _ _)
  · rw [hring]
    exact fun m hm => hl.mem_iff.mp (List.mem_of_mem_take hm)

end WaveSpan.Vector
