import Nupp.Digest.StreamingCorrect

/-! The `Hasher` interface: chunks are fed and answers are read in any order. The digest and
the message authentication code answer, each time, what the standards say of the bytes fed
so far. -/

namespace Nupp.streaming

open Standard (Byte Word Hash)

/-- The host language has no longer strings. -/
abbrev LuaString := { bytes : List Byte // bytes.length < 2 ^ 31 }

/-- What a record that implements `hash.Hasher` does; a read leaves the record as it is. -/
structure Hasher (S : Type*) where
  update : S → List Byte → S
  digest : S → List Byte
  hex : S → List Char
  writeDigest : S → (ℕ → Byte) → ℕ → Byte

def sha256Hasher : Hasher Sha256 := ⟨update, digest, hex, writeDigest⟩

def hmacHasher : Hasher Hmac := ⟨Hmac.update, Hmac.digest, Hmac.hex, Hmac.writeDigest⟩

inductive Call where
  | update (bytes : LuaString)
  | digest
  | hex
  | writeDigest (destination : ℕ → Byte)

inductive Answer where
  | bytes (raw : List Byte)
  | text (digits : List Char)
  | table (destination : ℕ → Byte)

def Hasher.answers {S : Type*} (hasher : Hasher S) : S → List Call → List Answer
  | _, [] => []
  | self, .update bytes :: calls => hasher.answers (hasher.update self bytes.1) calls
  | self, .digest :: calls => .bytes (hasher.digest self) :: hasher.answers self calls
  | self, .hex :: calls => .text (hasher.hex self) :: hasher.answers self calls
  | self, .writeDigest destination :: calls =>
    .table (hasher.writeDigest self destination) :: hasher.answers self calls

/-- The answers when each read is of a function of the bytes fed so far. -/
def expected (f : List Byte → List Byte) : List Byte → List Call → List Answer
  | _, [] => []
  | fed, .update bytes :: calls => expected f (fed ++ bytes.1) calls
  | fed, .digest :: calls => .bytes (f fed) :: expected f fed calls
  | fed, .hex :: calls => .text (Standard.hex (f fed)) :: expected f fed calls
  | fed, .writeDigest destination :: calls =>
    .table (placed (f fed) destination) :: expected f fed calls

def total : List Call → ℕ
  | [] => 0
  | .update bytes :: calls => bytes.1.length + total calls
  | _ :: calls => total calls

/-- A hasher that follows a function, up to a length of what it is fed. -/
structure Follows {S : Type*} (hasher : Hasher S) (f : List Byte → List Byte) (bound : ℕ)
    (rel : S → List Byte → Prop) : Prop where
  update : ∀ self fed (bytes : LuaString), rel self fed →
    rel (hasher.update self bytes.1) (fed ++ bytes.1)
  digest : ∀ self fed, rel self fed → fed.length < bound → hasher.digest self = f fed
  hex : ∀ self, hasher.hex self = Standard.hex (hasher.digest self)
  writeDigest : ∀ self destination,
    hasher.writeDigest self destination = placed (hasher.digest self) destination

theorem Follows.answers {S : Type*} {hasher : Hasher S} {f : List Byte → List Byte} {bound : ℕ}
    {rel : S → List Byte → Prop} (h : Follows hasher f bound rel) (calls : List Call) {self : S}
    {fed : List Byte} (hself : rel self fed) (hfed : fed.length + total calls < bound) :
    hasher.answers self calls = expected f fed calls := by
  induction calls generalizing self fed with
  | nil => rfl
  | cons call calls ih =>
    cases call with
    | update bytes =>
      refine ih (h.update self fed bytes hself) ?_
      rw [total] at hfed
      rw [List.length_append]
      omega
    | digest =>
      have hdigest := h.digest self fed hself (Nat.lt_of_le_of_lt (Nat.le_add_right _ _) hfed)
      rw [Hasher.answers, expected, hdigest, ih hself hfed]
    | hex =>
      have hdigest := h.digest self fed hself (Nat.lt_of_le_of_lt (Nat.le_add_right _ _) hfed)
      rw [Hasher.answers, expected, h.hex, hdigest, ih hself hfed]
    | writeDigest destination =>
      have hdigest := h.digest self fed hself (Nat.lt_of_le_of_lt (Nat.le_add_right _ _) hfed)
      rw [Hasher.answers, expected, h.writeDigest, hdigest, ih hself hfed]

theorem sha256_follows : Follows sha256Hasher Standard.sha256 (2 ^ 61) Holds where
  update _ _ bytes h := update_holds h bytes.1 (Nat.lt_trans bytes.2 (by decide))
  digest _ _ h hfed := digest_eq h hfed
  hex _ := rfl
  writeDigest := writeDigest_eq

section Hmac

theorem xorPad_eq {key : List Byte} (h : key.length = 64) {pad : ℕ} (hpad : pad < 256) :
    xorPad key pad = key.map (· ^^^ BitVec.ofNat 8 pad) := by
  refine List.ext_getElem (by simp [xorPad, h]) fun i hi hi' => ?_
  have hkey : i < key.length := by simpa using hi'
  have hbyte : (key.getD (i + 1 - 1) 0).toNat = key[i].toNat := by
    rw [Nat.add_sub_cancel, List.getD_eq_getElem?_getD, List.getElem?_eq_getElem hkey]
    rfl
  simp only [xorPad, List.getElem_map, List.getElem_range, byte, hbyte, i32]
  have hlt := key[i].isLt
  refine BitVec.eq_of_toNat_eq ?_
  rw [BitVec.toNat_ofNat, BitVec.toNat_xor, BitVec.toNat_ofNat, BitVec.toNat_ofNat,
    BitVec.toNat_xor, BitVec.toNat_ofNat, Nat.mod_eq_of_lt (a := pad) (by omega),
    Nat.mod_eq_of_lt (a := key[i].toNat) (by omega), Nat.mod_eq_of_lt (a := pad) (by omega)]
  exact Nat.mod_eq_of_lt (Nat.xor_lt_two_pow hlt hpad)

/-- The key that `Hmac` works with. -/
def paddedKey (key : List Byte) : List Byte :=
  let key := if 64 < key.length then digest (update sha256 key) else key
  key ++ List.replicate (64 - key.length) 0

theorem paddedKey_eq (key : LuaString) : paddedKey key.1 = Standard.blockKey key.1 := by
  have hfed := update_holds holds_new key.1 (Nat.lt_trans key.2 (by decide))
  have hdigest : digest (update sha256 key.1) = Standard.sha256 key.1 :=
    digest_eq hfed (Nat.lt_trans key.2 (by decide))
  rw [paddedKey, hdigest]
  rfl

theorem sha256_length (m : List Byte) : (Standard.sha256 m).length = 32 := rfl

theorem blockKey_length (key : List Byte) : (Standard.blockKey key).length = 64 := by
  have hdigest := sha256_length key
  simp only [Standard.blockKey, List.length_append, List.length_replicate]
  split
  · omega
  · omega

/-- The code's record for a key, fed with a message. -/
structure Keyed (key : LuaString) (mac : Hmac) (fed : List Byte) : Prop where
  inner : Holds mac.inner ((Standard.blockKey key.1).map (· ^^^ 0x36) ++ fed)
  outer : mac.outerPad = (Standard.blockKey key.1).map (· ^^^ 0x5c)

theorem keyed_new (key : LuaString) : Keyed key (newHmac key.1) [] := by
  have hlength := blockKey_length key.1
  have hinner : (newHmac key.1).inner = update sha256 (xorPad (Standard.blockKey key.1) 0x36) := by
    rw [← paddedKey_eq]
    rfl
  have houter : (newHmac key.1).outerPad = xorPad (Standard.blockKey key.1) 0x5c := by
    rw [← paddedKey_eq]
    rfl
  constructor
  · rw [hinner, xorPad_eq hlength (by decide), List.append_nil]
    exact update_holds holds_new _ (by rw [List.length_map, hlength]; decide)
  · rw [houter, xorPad_eq hlength (by decide)]
    rfl

theorem hmac_digest {key : LuaString} {self : Hmac} {fed : List Byte} (h : Keyed key self fed)
    (hfed : fed.length < 2 ^ 61 - 64) : self.digest = Standard.hmac key.1 fed := by
  have hlength := blockKey_length key.1
  have hinner : digest self.inner =
      Standard.sha256 ((Standard.blockKey key.1).map (· ^^^ 0x36) ++ fed) := by
    refine digest_eq h.inner ?_
    rw [List.length_append, List.length_map, hlength]
    omega
  have hpad := update_holds holds_new ((Standard.blockKey key.1).map (· ^^^ 0x5c))
    (by rw [List.length_map, hlength]; decide)
  have hwhole := update_holds hpad (digest self.inner) (by rw [hinner, sha256_length]; decide)
  rw [Hmac.digest, Hmac.outer, h.outer, digest_eq hwhole, hinner]
  · rfl
  · rw [hinner, List.nil_append, List.length_append, List.length_map, hlength, sha256_length]
    decide

theorem hmac_follows (key : LuaString) :
    Follows hmacHasher (Standard.hmac key.1) (2 ^ 61 - 64) (Keyed key) where
  update self fed bytes h := by
    refine ⟨?_, h.outer⟩
    have hmore := update_holds h.inner bytes.1 (Nat.lt_trans bytes.2 (by decide))
    rwa [List.append_assoc] at hmore
  digest _ _ h hfed := hmac_digest h hfed
  hex _ := rfl
  writeDigest self destination := writeDigest_eq self.outer destination

end Hmac

end Nupp.streaming
