import AmneziaWg.Lib.Linux

/-!
# Message layouts and protocol constants

The constants of `messages.h`. Struct sizes are written as the sums of their
fields, so that a reader can hold them against the struct definitions.
-/

namespace AmneziaWg

open Linux

/-! ## Lengths -/

def noisePublicKeyLen : ℕ := 32
def noiseSymmetricKeyLen : ℕ := 32
def noiseTimestampLen : ℕ := 8 + 4
def noiseAuthtagLen : ℕ := 16
def noiseHashLen : ℕ := 32
def cookieNonceLen : ℕ := 24
def cookieLen : ℕ := 16

/-- `noise_encrypted_len`: a ciphertext is its plaintext and a tag. -/
def noiseEncryptedLen (plainLen : ℕ) : ℕ := plainLen + noiseAuthtagLen

/-- `struct message_header`: one little-endian 32-bit type. -/
def messageHeaderSize : ℕ := 4

/-- `struct message_macs`: mac1 and mac2. -/
def messageMacsSize : ℕ := cookieLen + cookieLen

/-- `sizeof(struct message_handshake_initiation)`. -/
def messageInitiationSize : ℕ :=
  messageHeaderSize + 4 + noisePublicKeyLen + noiseEncryptedLen noisePublicKeyLen +
    noiseEncryptedLen noiseTimestampLen + messageMacsSize

/-- `sizeof(struct message_handshake_response)`. -/
def messageResponseSize : ℕ :=
  messageHeaderSize + 4 + 4 + noisePublicKeyLen + noiseEncryptedLen 0 + messageMacsSize

/-- `sizeof(struct message_handshake_cookie)`. -/
def messageCookieReplySize : ℕ :=
  messageHeaderSize + 4 + cookieNonceLen + noiseEncryptedLen cookieLen

/-- `sizeof(struct message_data)`, the header in front of the ciphertext. -/
def messageTransportSize : ℕ := messageHeaderSize + 4 + 8

def messageMaxSize : ℕ := 65535

def messagePaddingMultiple : ℕ := 16

theorem messageTransportSize_eq : messageTransportSize = 16 := rfl

/-! ## Message kinds -/

/-- `enum message_index`: the index into `headers` and `junk_size`. -/
inductive MsgIdx where
  | init
  | response
  | cookie
  | transport
deriving DecidableEq, Repr

/-- `enum message_type`: the header value of each kind when nothing is configured. -/
def MsgIdx.messageType : MsgIdx → U32
  | .init => 1
  | .response => 2
  | .cookie => 3
  | .transport => 4

/-- `enum message_size`, by kind. -/
def MsgIdx.messageSize : MsgIdx → ℕ
  | .init => messageInitiationSize
  | .response => messageResponseSize
  | .cookie => messageCookieReplySize
  | .transport => messageTransportSize

/-! ## Counter window and limits -/

def bitsPerLong : ℕ := 64
def counterBitsTotal : ℕ := 8192
def counterRedundantBits : ℕ := bitsPerLong
def counterWindowSize : ℕ := counterBitsTotal - counterRedundantBits
def u64Max : ℕ := 2 ^ 64 - 1
def rejectAfterMessages : ℕ := u64Max - counterWindowSize - 1

end AmneziaWg
