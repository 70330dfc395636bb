/-
WaveSpan.Lib.Format — byte formats that are read back.

A format is an encoder and a reader off the front of a buffer, each of which undoes the other:
what is read was written (`exact`), and what was written is read (`reads`) as long as the buffer
is short enough for the 32-bit length comparison of a chunk. Formats are put together from chunks
and words, one after the other (`seq`), under other names (`iso`) and as counted lists (`list`).
-/
import WaveSpan.Lib.Wire

namespace WaveSpan.Wire

structure Format (α : Type) where
  enc : α → Bytes
  dec : Bytes → Option (α × Bytes)
  exact : ∀ {b : Bytes} {a : α} {r : Bytes}, dec b = some (a, r) → b = enc a ++ r
  reads : ∀ {a : α} {r : Bytes}, (enc a ++ r).length < 2 ^ 32 → dec (enc a ++ r) = some (a, r)

/-- What is read as a chunk is one. -/
theorem takeChunk_exact {b : Bytes} {x : Chunk} {r : Bytes} (h : takeChunk b = some (x, r)) :
    b = appendChunk [] x.val ++ r := by
  unfold takeChunk at h
  dsimp only at h
  split at h
  · cases h
  · rename_i h4
    split at h
    · cases h
    · rename_i hlen
      cases h
      have hle := Nat.mod_le (b.drop 4).length (2 ^ 32)
      have htake : ((b.drop 4).take (beVal (b.take 4))).length = beVal (b.take 4) := by
        rw [List.length_take]
        omega
      have hcount := beBytes_beVal (b.take 4)
      rw [List.length_take, Nat.min_eq_left (by omega)] at hcount
      simp only [appendChunk, List.nil_append, htake, hcount, List.append_assoc,
        List.take_append_drop]

namespace Format

variable {α β : Type}

def chunk : Format Chunk where
  enc x := appendChunk [] x.val
  dec := takeChunk
  exact := takeChunk_exact
  reads {x r} h := takeChunk_append x r (by simp at h; omega)

def bytes : Format Bytes where
  enc := appendChunk []
  dec b := (takeChunk b).map fun p => (p.1.val, p.2)
  exact h := by
    obtain ⟨p, hp, heq⟩ := Option.map_eq_some_iff.mp h
    cases heq
    exact takeChunk_exact hp
  reads {x r} h := by
    simp only [List.length_append, length_appendChunk, List.length_nil] at h
    rw [takeChunk_append ⟨x, by omega⟩ r (by simp only; omega)]
    rfl

def word : Format UInt64 where
  enc := u64
  dec b := if b.length < 8 then none else some (getU64 b, b.drop 8)
  exact {b a r} h := by
    split at h
    · cases h
    · rename_i hlen
      cases h
      exact (u64_getU64_drop hlen).symm
  reads {a r} _ := by
    rw [if_neg (by simp), getU64_u64_append, drop_u64_append]

def seq (f : Format α) (g : Format β) : Format (α × β) where
  enc p := f.enc p.1 ++ g.enc p.2
  dec b := (f.dec b).bind fun p => (g.dec p.2).map fun q => ((p.1, q.1), q.2)
  exact {b a r} h := by
    obtain ⟨p, hp, h⟩ := Option.bind_eq_some_iff.mp h
    obtain ⟨q, hq, heq⟩ := Option.map_eq_some_iff.mp h
    cases heq
    rw [f.exact hp, g.exact hq, List.append_assoc]
  reads {a r} h := by
    rw [List.append_assoc] at h ⊢
    have hg : (g.enc a.2 ++ r).length < 2 ^ 32 := by
      rw [List.length_append] at h
      omega
    rw [f.reads h, Option.bind_some, g.reads hg]
    rfl

theorem seq_none {f : Format α} {g : Format β} {b : Bytes} (h : f.dec b = none) :
    (f.seq g).dec b = none := by
  simp only [seq, h, Option.bind_none]

def iso (f : Format α) (wrap : α → β) (unwrap : β → α) (hwrap : ∀ b, wrap (unwrap b) = b)
    (hunwrap : ∀ a, unwrap (wrap a) = a) : Format β where
  enc b := f.enc (unwrap b)
  dec b := (f.dec b).map fun p => (wrap p.1, p.2)
  exact h := by
    obtain ⟨p, hp, heq⟩ := Option.map_eq_some_iff.mp h
    cases heq
    rw [hunwrap]
    exact f.exact hp
  reads h := by
    rw [f.reads h, Option.map_some, hwrap]

def takeN (f : Format α) : Nat → Bytes → Option (List α × Bytes)
  | 0, b => some ([], b)
  | n + 1, b => (f.dec b).bind fun p => (f.takeN n p.2).map fun q => (p.1 :: q.1, q.2)

/-- What is taken was encoded there. -/
theorem takeN_exact (f : Format α) {n : Nat} {b : Bytes} {l : List α} {r : Bytes}
    (h : f.takeN n b = some (l, r)) : l.length = n ∧ b = l.flatMap f.enc ++ r := by
  induction n generalizing b l with
  | zero => cases h; exact ⟨rfl, rfl⟩
  | succ n ih =>
    obtain ⟨p, hp, h⟩ := Option.bind_eq_some_iff.mp h
    obtain ⟨q, hq, heq⟩ := Option.map_eq_some_iff.mp h
    cases heq
    obtain ⟨hlen, hb⟩ := ih hq
    refine ⟨congrArg (· + 1) hlen, ?_⟩
    rw [f.exact hp, hb, List.flatMap_cons, List.append_assoc]

theorem takeN_reads (f : Format α) {l : List α} {r : Bytes}
    (h : (l.flatMap f.enc ++ r).length < 2 ^ 32) :
    f.takeN l.length (l.flatMap f.enc ++ r) = some (l, r) := by
  induction l with
  | nil => rfl
  | cons a l ih =>
    rw [List.flatMap_cons, List.append_assoc] at h ⊢
    have htail : (l.flatMap f.enc ++ r).length < 2 ^ 32 := by
      rw [List.length_append] at h
      omega
    rw [List.length_cons, takeN, f.reads h, Option.bind_some, ih htail]
    rfl

def list (f : Format α) (hpos : ∀ a, 0 < (f.enc a).length) : Format (List α) where
  enc l := beBytes 4 l.length ++ l.flatMap f.enc
  dec b := if b.length < 4 then none else f.takeN (beVal (b.take 4)) (b.drop 4)
  exact {b a r} h := by
    split at h
    · cases h
    · obtain ⟨hlen, hb⟩ := f.takeN_exact h
      have hcount := beBytes_beVal (b.take 4)
      rw [List.length_take, Nat.min_eq_left (by omega), ← hlen] at hcount
      rw [List.append_assoc, hcount, ← hb, List.take_append_drop]
  reads {a r} h := by
    have hcount : a.length ≤ (a.flatMap f.enc).length := by
      clear h
      induction a with
      | nil => exact Nat.zero_le _
      | cons x a ih =>
        have := hpos x
        rw [List.flatMap_cons, List.length_append, List.length_cons]
        omega
    simp only [List.length_append, length_beBytes] at h
    have hval : beVal (beBytes 4 a.length) = a.length := by
      rw [beVal_beBytes, Nat.mod_eq_of_lt (by omega)]
    rw [List.append_assoc, if_neg (by simp), List.take_left' (length_beBytes 4 _),
      List.drop_left' (length_beBytes 4 _), hval]
    exact f.takeN_reads (by rw [List.length_append]; omega)

def read {ε : Type} (f : Format α) (e : ε) (b : Bytes) : Except ε α :=
  match f.dec b with
  | none => .error e
  | some (a, _) => .ok a

section
variable {ε : Type} {f : Format α} {e : ε}

/-- What is read is the beginning of the buffer. -/
theorem enc_prefix {b : Bytes} {a : α} (h : f.read e b = .ok a) : f.enc a <+: b := by
  unfold read at h
  split at h
  · cases h
  · rename_i hd
    cases h
    exact ⟨_, (f.exact hd).symm⟩

/-- What is encoded is read back. -/
theorem read_enc {a : α} (h : (f.enc a).length < 2 ^ 32) : f.read e (f.enc a) = .ok a := by
  have hr := f.reads (a := a) (r := []) (by rwa [List.append_nil])
  rw [List.append_nil] at hr
  rw [read, hr]

end

end Format

end WaveSpan.Wire
