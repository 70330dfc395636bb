/-
WaveSpan.Vector.Keys — the keys of the vector store
(`internal/vector/store.go`, `selection.go`).

Raw vectors live under `vr`. A second family holds a meta entry per vector (`vm`) and
an entry per vector attached to a graph node (`va`), which leads with the node. Every
part of a key stands behind its length, so the collection can be read back off each
kind of key (`collectionOfKey_rawKey`, `collectionOfKey_metaKey`,
`collectionOfKey_attachKey`).
-/
import WaveSpan.Lib.Varint

namespace WaveSpan.Vector

open WaveSpan.Wire

def pfxRaw : Bytes := [0x76, 0x72]

def pfxMeta : Bytes := [0x76, 0x6d]

def pfxAttach : Bytes := [0x76, 0x61]

def lp (dst s : Bytes) : Bytes := dst ++ lenPrefix s

/-- The string at the front of a buffer and what follows it. -/
def decodeLP (b : Bytes) : Option (Bytes × Bytes) := takeLenPrefix b

def rawKey (collection vectorID : Bytes) : Bytes := lp (lp pfxRaw collection) vectorID

def metaKey (collection vectorID : Bytes) : Bytes := lp (lp pfxMeta collection) vectorID

def attachKey (nodeID collection vectorID : Bytes) : Bytes :=
  lp (lp (lp pfxAttach nodeID) collection) vectorID

def collectionOfKey (key : Bytes) : Option Bytes :=
  if key.length < 2 then none
  else if key.take 2 = pfxRaw ∨ key.take 2 = pfxMeta then (decodeLP (key.drop 2)).map Prod.fst
  else if key.take 2 = pfxAttach then do
    let (_, rest) ← decodeLP (key.drop 2)
    (decodeLP rest).map Prod.fst
  else none

section
variable {c id node : Bytes}

/-- The collection is read off a key. -/
theorem collectionOfKey_rawKey (h : c.length < 2 ^ 64) :
    collectionOfKey (rawKey c id) = some c := by
  simp [collectionOfKey, rawKey, lp, pfxRaw, decodeLP, takeLenPrefix_lenPrefix _ h]

theorem collectionOfKey_metaKey (h : c.length < 2 ^ 64) :
    collectionOfKey (metaKey c id) = some c := by
  simp [collectionOfKey, metaKey, lp, pfxMeta, pfxRaw, decodeLP, takeLenPrefix_lenPrefix _ h]

theorem collectionOfKey_attachKey (hnode : node.length < 2 ^ 64) (h : c.length < 2 ^ 64) :
    collectionOfKey (attachKey node c id) = some c := by
  simp [collectionOfKey, attachKey, lp, pfxAttach, pfxRaw, pfxMeta, decodeLP,
    takeLenPrefix_lenPrefix _ h, takeLenPrefix_lenPrefix _ hnode]

end

end WaveSpan.Vector
