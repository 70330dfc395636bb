/-
WaveSpan.Records.Spaces — the pointers and the TTL index in one column family
(`internal/recordstore/encode.go`, `repair.go`, `selection.go`).

A pointer's key starts with the length of its namespace and an index key with the
byte `0xff`. The source counts on lengths below 128, where the length is one byte.
For longer namespaces the first byte is the low seven bits of the length with the
top bit set, and it is the sentinel exactly when those seven bits are all ones: for
255, 383, 511 and so on.

For every other length the two kinds of keys are told apart by their first byte, and
the readers go by that (`KeysDisjoint`). For a namespace of 255 bytes `NamespaceOfKey`
takes a pointer for an index entry and answers with another namespace, and a sweep far
enough ahead scans the pointer, as it does for all those lengths below 2^49
(`inRange_ttl`), more than an address space holds.
-/
import WaveSpan.Records.Store

namespace WaveSpan.Records

open WaveSpan.Wire WaveSpan.Collections

/-! ## Reading keys -/

/-- The namespace and user key of a pointer's key. -/
def parseLatestKey (k : Bytes) : Option (Bytes × Bytes) := takeLenPrefix k

def namespaceOfKey (key : Bytes) : Option Bytes :=
  match key with
  | [] => none
  | b :: _ =>
    if b = ttlSentinel then (parseTTLKey key).map (·.1) else (takeLenPrefix key).map (·.1)

def StartsWithSentinel (n : Nat) : Prop := 128 ≤ n ∧ n % 128 = 127

instance (n : Nat) : Decidable (StartsWithSentinel n) := inferInstanceAs (Decidable (_ ∧ _))

/-- The first byte of a length is below the sentinel, but for those lengths. -/
theorem putUvarint_first {n : Nat} (h : ¬ StartsWithSentinel n) :
    ∃ b bs, putUvarint n = b :: bs ∧ b.toNat < 255 := by
  rw [putUvarint]
  split
  · rename_i hn
    exact ⟨_, _, rfl, by rw [toNat_group (by omega)]; omega⟩
  · rename_i hn
    refine ⟨_, _, rfl, ?_⟩
    rw [toNat_group (by omega)]
    have : n % 128 ≠ 127 := fun hmod => h ⟨by omega, hmod⟩
    omega

theorem latestKey_first {ns : Bytes} (h : ¬ StartsWithSentinel ns.length) (key : Bytes) :
    ∃ b bs, latestKey ns key = b :: bs ∧ b.toNat < 255 := by
  obtain ⟨b, bs, hput, hlt⟩ := putUvarint_first h
  exact ⟨b, bs ++ ns ++ key, by simp [latestKey, lenPrefix, hput], hlt⟩

section
variable {ns key : Bytes}

theorem parseLatestKey_latestKey (h : ns.length < 2 ^ 64) :
    parseLatestKey (latestKey ns key) = some (ns, key) := takeLenPrefix_lenPrefix key h

/-- The namespace is read off a pointer's key. -/
theorem namespaceOfKey_latestKey (hlen : ns.length < 2 ^ 64)
    (h : ¬ StartsWithSentinel ns.length) : namespaceOfKey (latestKey ns key) = some ns := by
  have hparse : takeLenPrefix (latestKey ns key) = some (ns, key) :=
    parseLatestKey_latestKey hlen
  obtain ⟨b, bs, hkey, hlt⟩ := latestKey_first h key
  have hne : b ≠ ttlSentinel := by
    rintro rfl
    exact absurd hlt (by decide)
  rw [hkey] at hparse ⊢
  simp [namespaceOfKey, hne, hparse]

/-- A key that starts below the sentinel sorts before every index key. -/
theorem not_inRange_ttl (h : ¬ StartsWithSentinel ns.length) (stop : Option Bytes) :
    inRange ttlLowBound stop (latestKey ns key) = false := by
  obtain ⟨b, bs, hkey, hlt⟩ := latestKey_first h key
  have hbyte : compare b ttlSentinel = .lt := compare_byte_lt.mpr hlt
  have hcmp : compare (b :: bs) ttlLowBound = .lt := by
    rw [ttlLowBound, compare_cons_cons, hbyte]
    rfl
  rw [hkey]
  simp [inRange, hcmp]

/-- The bounds of a namespace scan enclose keys of its space only. -/
theorem inRange_namespace {start k : Bytes} {stop : Option Bytes}
    (h : inRange (latestKey ns start) (Store.scanStop ns stop) k = true) :
    namespacePrefix ns <+: k := by
  have hspace : ∃ u, k = lenPrefix ns ++ u ∧ inRange start stop u = true := by
    rw [← inRange_append]
    cases stop <;> exact h
  obtain ⟨u, rfl, -⟩ := hspace
  exact List.prefix_append _ _

/-- No key of a namespace's space is an index key. -/
theorem namespacePrefix_not_ttl (h : ¬ StartsWithSentinel ns.length) (e : Int64)
    (ns' key' : Bytes) : ¬ namespacePrefix ns <+: ttlKey e ns' key' := by
  rintro ⟨r, hr⟩
  obtain ⟨b, bs, hkey, hlt⟩ := latestKey_first h r
  rw [latestKey, lenPrefix] at hkey
  rw [namespacePrefix, lenPrefix, hkey, ttlKey, List.cons.injEq] at hr
  rw [hr.1] at hlt
  exact absurd hlt (by decide)

/-- A length of at most `j` groups sorts before `j` bytes `0xff`. -/
theorem compare_putUvarint_lt {j n : Nat} (hj : 0 < j) (hn : n < 2 ^ (7 * j)) (r t : Bytes) :
    compare (putUvarint n ++ r) (List.replicate j 0xff ++ t) = .lt := by
  induction j generalizing n with
  | zero => exact absurd hj (lt_irrefl 0)
  | succ j ih =>
    rw [putUvarint, List.replicate_succ, List.cons_append]
    split
    · rename_i hlt
      have hbyte : compare (UInt8.ofNat n) 0xff = .lt := by
        rw [compare_byte_lt, toNat_group (by omega)]
        exact hlt.trans (by decide)
      rw [List.cons_append, compare_cons_cons, hbyte]
      rfl
    · rename_i hge
      have hpow : 2 ^ (7 * (j + 1)) = 128 * 2 ^ (7 * j) := by rw [Nat.mul_succ, Nat.pow_add]; omega
      have hpos : 0 < j := by
        rcases Nat.eq_zero_or_pos j with rfl | hj
        · omega
        · exact hj
      rw [List.cons_append, compare_cons_cons, ih hpos (by omega)]
      -- the first group is the byte itself or below it
      rcases Nat.lt_or_ge (n % 128) 127 with hlow | hall
      · have hbyte : compare (UInt8.ofNat (n % 128 + 128)) 0xff = .lt := by
          rw [compare_byte_lt, toNat_group (by omega)]
          change _ < 255
          omega
        rw [hbyte]
        rfl
      · rw [show n % 128 + 128 = 255 by omega]
        rfl

/-- A pointer whose first byte is the sentinel lies in the range of a sweep. -/
theorem inRange_ttl (hlen : ns.length < 2 ^ 49) (h : StartsWithSentinel ns.length) :
    inRange ttlLowBound (some (ttlScanBound (-120001))) (latestKey ns key) = true := by
  have hstop : ttlScanBound (-120001) = List.replicate 7 0xff ++ [0x15, 0xa0] := by decide
  have hhigh := @compare_putUvarint_lt 7 ns.length (by omega) hlen (ns ++ key) [0x15, 0xa0]
  rw [inRange, hstop, latestKey, lenPrefix, List.append_assoc, hhigh, putUvarint,
    if_neg (by have := h.1; omega), show ns.length % 128 + 128 = 255 by have := h.2; omega]
  cases hrest : putUvarint (ns.length / 128) ++ (ns ++ key) <;>
    simp [ttlLowBound, ttlSentinel, hrest]

end

/-! ## The two families -/

/-- The keys of a record, read as what they are: pointers of different keys differ,
the readers recover namespace and user key, no pointer lies in a range of the TTL
index, index entries name their record, and a scan of the namespace meets pointers of
no other namespace and no index entry. -/
structure KeysDisjoint (ns key : Bytes) : Prop where
  latestKey_inj : ∀ ns' key', latestKey ns key = latestKey ns' key' → ns = ns' ∧ key = key'
  parse : parseLatestKey (latestKey ns key) = some (ns, key)
  namespaceOf : namespaceOfKey (latestKey ns key) = some ns
  swept : ∀ nowMs, inRange ttlLowBound (some (ttlScanBound nowMs)) (latestKey ns key) = false
  parseTTL : ∀ e, parseTTLKey (ttlKey e ns key) = some (ns, key)
  scan : ∀ start stop,
    (∀ ns' key', inRange (latestKey ns start) (Store.scanStop ns stop)
      (latestKey ns' key') = true → ns' = ns) ∧
    ∀ e ns' key', inRange (latestKey ns start) (Store.scanStop ns stop)
      (ttlKey e ns' key') = false

/-- The two families are disjoint at a namespace whose length does not start with the
sentinel byte, and at no other of a length below 2^49. -/
theorem key_spaces_disjoint (ns key : Bytes) (hlen : ns.length < 2 ^ 64) :
    (¬ StartsWithSentinel ns.length → KeysDisjoint ns key) ∧
      (ns.length < 2 ^ 49 → (KeysDisjoint ns key ↔ ¬ StartsWithSentinel ns.length)) := by
  have hplain : ¬ StartsWithSentinel ns.length → KeysDisjoint ns key := fun hns => {
    latestKey_inj := fun ns' key' h => latestKey_inj.mp h
    parse := parseLatestKey_latestKey hlen
    namespaceOf := namespaceOfKey_latestKey hlen hns
    swept := fun nowMs => not_inRange_ttl hns _
    parseTTL := fun e => parseTTLKey_ttlKey hlen e key
    scan := fun start stop => by
      refine ⟨fun ns' key' h => (namespacePrefix_isPrefix.mp (inRange_namespace h)).symm, ?_⟩
      intro e ns' key'
      rw [← Bool.not_eq_true]
      exact fun h => namespacePrefix_not_ttl hns e ns' key' (inRange_namespace h) }
  refine ⟨hplain, fun hshort => ⟨fun hdisjoint hns => ?_, hplain⟩⟩
  have hswept := hdisjoint.swept (-120001)
  rw [inRange_ttl hshort hns] at hswept
  cases hswept

/-- A namespace of 130 bytes, whose length takes two. -/
theorem key_spaces_disjoint_twoByteLength :
    namespaceOfKey (latestKey (List.replicate 130 0x61) [0x6b]) =
        some (List.replicate 130 0x61) ∧
      inRange ttlLowBound (some (ttlScanBound (-120001)))
        (latestKey (List.replicate 130 0x61) [0x6b]) = false := by
  have hdisjoint := (key_spaces_disjoint (List.replicate 130 0x61) [0x6b] (by simp)).1
    (by simp [StartsWithSentinel])
  exact ⟨hdisjoint.namespaceOf, hdisjoint.swept _⟩

/-- A namespace of 255 bytes: its pointer's key reads as an index entry of a
namespace of 97 bytes, and lies in the range a sweep scans. -/
theorem key_spaces_overlap :
    namespaceOfKey (latestKey (List.replicate 255 0x61) [0x6b]) =
        some (List.replicate 97 0x61) ∧
      inRange ttlLowBound (some (ttlScanBound (-120001)))
        (latestKey (List.replicate 255 0x61) [0x6b]) = true ∧
      inRange ttlLowBound (some (ttlScanBound 9000000000000000000))
        (latestKey (List.replicate 255 0x61) [0x6b]) = true := by
  decide +kernel

end WaveSpan.Records
