import AmneziaWg.Messages

/-!
# The symmetric state of the handshake

The functions of `noise.c` that work on `chaining_key` and `hash`. The curve, the
hash and the AEAD are parameters; HMAC and the key derivation are built from the hash
as in the source.

* **Model**: `Primitives`, `kdf`, `mixDh`, `mixPsk`, `messageEncrypt`, `messageDecrypt`.
* **Law**: `messageDecrypt_messageEncrypt`.
-/

namespace AmneziaWg.Noise

open Linux

/-! ## Primitives -/

/-- The cryptographic functions, and what an honest run rests on: the two ways to a
shared secret agree, and decryption undoes encryption. -/
structure Primitives where
  blake2s : Bytes → Bytes
  /-- The function of the curve, before the test for the null point. -/
  x25519 : Bytes → Bytes → Bytes
  /-- Key, nonce, associated data and plaintext. -/
  encrypt : Bytes → U64 → Bytes → Bytes → Bytes
  decrypt : Bytes → U64 → Bytes → Bytes → Option Bytes
  /-- The point that `curve25519_generate_public` starts from. -/
  basepoint : Bytes
  x25519_comm : ∀ a b, x25519 a (x25519 b basepoint) = x25519 b (x25519 a basepoint)
  decrypt_encrypt : ∀ key nonce ad plaintext,
    decrypt key nonce ad (encrypt key nonce ad plaintext) = some plaintext

/-- `curve25519_null_point`, and the `zero_point` of `mix_precomputed_dh`. -/
def nullPoint : Bytes := List.replicate noisePublicKeyLen 0

variable (P : Primitives)

/-- `curve25519`: it fails on the null point. -/
def curve25519 (secret point : Bytes) : Option Bytes :=
  let dh := P.x25519 secret point
  if dh = nullPoint then none else some dh

/-- `curve25519_generate_public`. -/
def curve25519GeneratePublic (secret : Bytes) : Option Bytes :=
  if secret = nullPoint then none else curve25519 P secret P.basepoint

/-- `curve25519_clamp_secret`. -/
def curve25519ClampSecret (secret : Bytes) : Bytes :=
  (secret.modify 0 (· &&& 248)).modify 31 fun b => (b &&& 127) ||| 64

/-! ## Key derivation -/

/-- `BLAKE2S_BLOCK_SIZE`. -/
def blake2sBlockSize : ℕ := 64

/-- `hmac`. -/
def hmac (input key : Bytes) : Bytes :=
  let short := if key.length > blake2sBlockSize then P.blake2s key else key
  let xKey := short ++ List.replicate (blake2sBlockSize - short.length) 0
  let inner := xKey.map (· ^^^ 0x36)
  let outer := inner.map (· ^^^ (0x5c ^^^ 0x36))
  P.blake2s (outer ++ P.blake2s (inner ++ input))

/-- What `kdf` derives. A `NULL` destination leaves out its key and those behind it, and
does not change those before it. -/
structure Derived where
  first : Bytes
  second : Bytes
  third : Bytes
deriving DecidableEq, Repr

/-- `kdf`; all lengths asked for are the length of the hash. -/
def kdf (data chainingKey : Bytes) : Derived :=
  let secret := hmac P data chainingKey
  let first := hmac P [1] secret
  let second := hmac P (first ++ [2]) secret
  let third := hmac P (second ++ [3]) secret
  ⟨first, second, third⟩

/-! ## The symmetric state -/

/-- `chaining_key` and `hash`. -/
structure Symmetric where
  chainingKey : Bytes
  hash : Bytes
deriving DecidableEq, Repr

def handshakeName : Bytes := ascii "Noise_IKpsk2_25519_ChaChaPoly_BLAKE2s"

def identifierName : Bytes := ascii "WireGuard v1 zx2c4 Jason@zx2c4.com"

/-- `mix_hash`. -/
def mixHash (hash src : Bytes) : Bytes := P.blake2s (hash ++ src)

/-- `wg_noise_init`: `handshake_init_chaining_key` and `handshake_init_hash`. -/
def wgNoiseInit : Symmetric :=
  let chainingKey := P.blake2s handshakeName
  ⟨chainingKey, P.blake2s (chainingKey ++ identifierName)⟩

/-- `handshake_init`. -/
def handshakeInit (remoteStatic : Bytes) : Symmetric :=
  ⟨(wgNoiseInit P).chainingKey, mixHash P (wgNoiseInit P).hash remoteStatic⟩

/-- `mix_dh`: the new chaining key and the key. -/
def mixDh (chainingKey secret point : Bytes) : Option (Bytes × Bytes) :=
  (curve25519 P secret point).map fun dh =>
    let out := kdf P dh chainingKey
    (out.first, out.second)

/-- `mix_precomputed_dh`. -/
def mixPrecomputedDh (chainingKey precomputed : Bytes) : Option (Bytes × Bytes) :=
  if precomputed = nullPoint then none
  else
    let out := kdf P precomputed chainingKey
    some (out.first, out.second)

/-- `mix_psk`: the new state and the key. -/
def mixPsk (sym : Symmetric) (psk : Bytes) : Symmetric × Bytes :=
  let out := kdf P psk sym.chainingKey
  (⟨out.first, mixHash P sym.hash out.second⟩, out.third)

/-- `message_encrypt`: the ciphertext and the new hash. -/
def messageEncrypt (plaintext key hash : Bytes) : Bytes × Bytes :=
  let ciphertext := P.encrypt key 0 hash plaintext
  (ciphertext, mixHash P hash ciphertext)

/-- `message_decrypt`: the plaintext and the new hash. -/
def messageDecrypt (ciphertext key hash : Bytes) : Option (Bytes × Bytes) :=
  (P.decrypt key 0 hash ciphertext).map fun plaintext => (plaintext, mixHash P hash ciphertext)

/-- `message_ephemeral`. -/
def messageEphemeral (ephemeral : Bytes) (sym : Symmetric) : Symmetric :=
  ⟨(kdf P ephemeral sym.chainingKey).first, mixHash P sym.hash ephemeral⟩

/-! ## Law -/

variable {P}

/-- The receiver of a ciphertext gets the plaintext, and the hash of the sender. -/
theorem messageDecrypt_messageEncrypt (plaintext key hash : Bytes) :
    messageDecrypt P (messageEncrypt P plaintext key hash).1 key hash =
      some (plaintext, (messageEncrypt P plaintext key hash).2) := by
  rw [messageDecrypt, messageEncrypt, P.decrypt_encrypt]
  rfl

end AmneziaWg.Noise
