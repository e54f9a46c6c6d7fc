import Nupp.Digest.Hasher
import Nupp.Digest.Sha256Correct

/-! The two implementations compute one function. -/

namespace Nupp.digest

open streaming (LuaString Call expected total sha256Hasher hmacHasher newHmac)

/-- Whatever the chunks and however often the digest is read between them, the streaming hasher
answers with the digest of what it was fed, its keyed form with the code of it, and the one-shot
digest of a string is the same digest in hexadecimal. -/
theorem digests_agree (calls : List Call) (key value : LuaString) (turns : ℕ)
    (hcalls : total calls < 2 ^ 61 - 64) (hturns : value.1.length / 64 + 2 < turns) :
    sha256Hasher.answers streaming.sha256 calls = expected Standard.sha256 [] calls ∧
      hmacHasher.answers (newHmac key.1) calls = expected (Standard.hmac key.1) [] calls ∧
      sha256 turns value.1 = some (.ok (Standard.hex (Standard.sha256 value.1))) := by
  refine ⟨?_, ?_, sha256_eq value.2 hturns⟩
  · refine streaming.sha256_follows.answers calls streaming.holds_new ?_
    rw [List.length_nil]
    omega
  · refine (streaming.hmac_follows key).answers calls (streaming.keyed_new key) ?_
    rw [List.length_nil]
    omega

/-- Three chunks, one of them empty, with reads in between. -/
def threeChunks : List Call :=
  [.hex, .update ⟨[97, 98], by decide⟩, .digest, .update ⟨[], by decide⟩, .digest,
    .update ⟨[99], by decide⟩, .hex, .writeDigest fun _ => 0]

theorem digests_agree_threeChunks :
    sha256Hasher.answers streaming.sha256 threeChunks = expected Standard.sha256 [] threeChunks ∧
      hmacHasher.answers (newHmac [107]) threeChunks =
        expected (Standard.hmac [107]) [] threeChunks ∧
      sha256 3 [97, 98, 99] = some (.ok (Standard.hex (Standard.sha256 [97, 98, 99]))) :=
  digests_agree threeChunks ⟨[107], by decide⟩ ⟨[97, 98, 99], by decide⟩ 3 (by decide) (by decide)

end Nupp.digest
