import Qcc730.Lib.Bytes
import Qcc730.Lib.Cmd

/-! Secure storage: `secure_storage_encrypt_authenticate` and `secure_storage_decrypt_authenticate`.

    The data is encrypted with AES-CBC under a key derived from the password, and an HMAC of the ciphertext goes
    into the meta data, before a version byte and the IV. Decrypting computes the HMAC again and compares it with
    the stored one before it decrypts. The number of bytes it compares is `CEML_HASH_ALGO_SHA256`, which is 2, in
    the place of the digest size, which is 32; and the IV is not under the HMAC.

    HMAC, cipher and key derivation are given functions. Every call of the crypto library may also fail, and a
    failed call leaves its output as it was. -/

namespace Qcc730.Securefs
open Lib

/-- `CeMLErrorType` -/
inductive CeMLErrorType where
  | success
  | failure
  | invalidParam
  | notSupported
  | timeout
  | noMemory
  | badAddress
  | badData
  | hwBusy
  | notAllowed
  deriving DecidableEq, Repr

/-- The functions of the crypto library: `CeMLHmac` with SHA-256, the key that `CeML_hw_kdf` derives from a user
    input, and AES-128-CBC in the two directions. -/
structure Crypto where
  hmac : Bytes → Bytes → Bytes
  kdf : Bytes → Bytes
  encrypt : Bytes → Bytes → Bytes → Bytes
  decrypt : Bytes → Bytes → Bytes → Bytes
  hmac_length : ∀ key message, (hmac key message).length = 32
  encrypt_length : ∀ key iv data, (encrypt key iv data).length = data.length
  decrypt_encrypt : ∀ key iv data, data.length % 16 = 0 → decrypt key iv (encrypt key iv data) = data

/-- The calls that can fail. -/
inductive CeCall where
  | init
  | hwKdf
  | hmac
  | cipherInit
  | setMode
  | setKey
  | setIv
  | setDirection
  | cipherData
  | cipherDeInit
  deriving DecidableEq

/-- How each call returns. -/
abbrev Outcomes := CeCall → CeMLErrorType

/-- No call fails. -/
def Outcomes.fine : Outcomes := fun _ => .success

/-- The pointers and lengths of a call, as the checks at its start see them; 0 is `NULL`. -/
structure Buffers where
  inputPtr : ℕ
  outputPtr : ℕ
  outputLenPtr : ℕ
  outputLen : ℕ
  metaPtr : ℕ
  metaLen : ℕ

/-- The checks at the start of both functions. -/
def Buffers.check (b : Buffers) (inputLen : ℕ) : CeMLErrorType :=
  if b.inputPtr = 0 ∨ b.outputPtr = 0 ∨ b.outputLenPtr = 0 ∨ inputLen % 16 ≠ 0 then .invalidParam
  else if b.outputLen ≠ inputLen ∨ ¬b.outputPtr + b.outputLen ≤ 0xFFFFFFFF then .invalidParam
  else if b.metaPtr = 0 ∨ b.metaLen ≠ 64 then .invalidParam
  else if b.outputPtr ≤ b.metaPtr ∧ b.metaPtr < b.outputPtr + b.outputLen then .badAddress
  else .success

/-- What a call has written: the output buffer and the meta data, where it has. -/
structure Written where
  output : Option Bytes
  metaData : Option Bytes

/-- What a call leaves: its result, what it has written, and `*output_data_len_ptr`. -/
structure Answer where
  error : CeMLErrorType
  written : Written
  outputLen : ℕ

/-- A call of the library: its error ends the sequence. -/
def need (e : CeMLErrorType) : Cmd Written CeMLErrorType Unit := Cmd.ensure (fun _ => e = .success) e

/-- The result of a sequence of calls. -/
def resultOf : Except CeMLErrorType Unit → CeMLErrorType
  | .ok _ => .success
  | .error e => e

/-- The checks, then the sequence; the output length is written after the sequence whatever it returns. -/
def guarded (b : Buffers) (inputLen : ℕ) (steps : Cmd Written CeMLErrorType Unit) : Answer :=
  if b.check inputLen = .success then
    let r := steps ⟨none, none⟩
    ⟨resultOf r.1, r.2, inputLen⟩
  else ⟨b.check inputLen, ⟨none, none⟩, b.outputLen⟩

section Storage

variable (e : Crypto)

/-- The meta data of an output: HMAC, version 1, IV; the last 15 bytes are left as they were. -/
def sealMeta (password ciphertext iv before : Bytes) : Bytes :=
  e.hmac password ciphertext ++ [1] ++ iv ++ before.drop 49

/-- The sequence of `secure_storage_encrypt_authenticate`. -/
def encryptSteps (calls : Outcomes) (password input iv metaBefore : Bytes) : Cmd Written CeMLErrorType Unit := do
  need (calls .init)
  need (calls .cipherInit)
  need (calls .setMode)
  need (calls .hwKdf)
  need (calls .setKey)
  need (calls .setIv)
  need (calls .setDirection)
  need (calls .cipherData)
  let ciphertext := e.encrypt (e.kdf password) iv input
  Cmd.modify fun w => { w with output := some ciphertext }
  need (calls .cipherDeInit)
  need (calls .hmac)
  Cmd.modify fun w => { w with metaData := some (sealMeta e password ciphertext iv metaBefore) }

/-- `secure_storage_encrypt_authenticate`; `iv` is what the random number generator gives. -/
def encryptAuthenticate (calls : Outcomes) (b : Buffers) (password input iv metaBefore : Bytes) : Answer :=
  guarded b input.length (encryptSteps e calls password input iv metaBefore)

/-- The sequence of `secure_storage_decrypt_authenticate` up to the comparison of the HMAC, of which the first
    `CEML_HASH_ALGO_SHA256` bytes are looked at. -/
def authenticate (calls : Outcomes) (password input metaData : Bytes) : Cmd Written CeMLErrorType Unit := do
  need (calls .init)
  need (calls .hwKdf)
  need (calls .hmac)
  Cmd.ensure (fun _ => metaData.take 2 = (e.hmac password input).take 2) .badData

/-- The rest of it: decrypting, with the IV of the meta data. -/
def decryptSteps (calls : Outcomes) (password input metaData : Bytes) : Cmd Written CeMLErrorType Unit := do
  need (calls .cipherInit)
  need (calls .setMode)
  need (calls .hwKdf)
  need (calls .setKey)
  need (calls .setIv)
  need (calls .setDirection)
  need (calls .cipherData)
  Cmd.modify fun w => { w with output := some (e.decrypt (e.kdf password) ((metaData.drop 33).take 16) input) }
  need (calls .cipherDeInit)

/-- `secure_storage_decrypt_authenticate` -/
def decryptAuthenticate (calls : Outcomes) (b : Buffers) (password input metaData : Bytes) : Answer :=
  guarded b input.length do
    authenticate e calls password input metaData
    decryptSteps e calls password input metaData

/-! ### Runs -/

theorem need_bind (c : CeMLErrorType) (f : Unit → Cmd Written CeMLErrorType Unit) (w : Written) :
    (need c >>= f) w = if c = .success then f () w else (.error c, w) := Cmd.ensure_bind _ _ f w

/-- Without a failing call encrypting writes the ciphertext and the meta data. -/
theorem encryptAuthenticate_fine {b : Buffers} {input : Bytes} (hb : b.check input.length = .success)
    (password iv metaBefore : Bytes) :
    encryptAuthenticate e .fine b password input iv metaBefore =
      ⟨.success, ⟨some (e.encrypt (e.kdf password) iv input),
        some (sealMeta e password (e.encrypt (e.kdf password) iv input) iv metaBefore)⟩, input.length⟩ := by
  rw [encryptAuthenticate, guarded, if_pos hb]
  rfl

/-- The comparison passes exactly where the first two bytes agree. -/
theorem authenticate_fine {input metaData password : Bytes} (h : metaData.take 2 = (e.hmac password input).take 2)
    (w : Written) : authenticate e .fine password input metaData w = (.ok (), w) := by
  simp only [authenticate, need_bind, Outcomes.fine, if_true, Cmd.ensure_apply, if_pos h]

theorem authenticate_refuses (calls : Outcomes) {input metaData password : Bytes}
    (h : metaData.take 2 ≠ (e.hmac password input).take 2) (w : Written) :
    ∃ c, c ≠ .success ∧ authenticate e calls password input metaData w = (.error c, w) := by
  rw [authenticate, need_bind]
  by_cases h₁ : calls .init = .success
  swap
  · exact ⟨_, h₁, if_neg h₁⟩
  rw [if_pos h₁, need_bind]
  by_cases h₂ : calls .hwKdf = .success
  swap
  · exact ⟨_, h₂, if_neg h₂⟩
  rw [if_pos h₂, need_bind]
  by_cases h₃ : calls .hmac = .success
  swap
  · exact ⟨_, h₃, if_neg h₃⟩
  rw [if_pos h₃, Cmd.ensure_apply, if_neg h]
  exact ⟨.badData, CeMLErrorType.noConfusion, rfl⟩

/-- Where the first two bytes agree, decrypting without a failing call decrypts. -/
theorem decryptAuthenticate_fine {b : Buffers} {input metaData password : Bytes}
    (hb : b.check input.length = .success) (h : metaData.take 2 = (e.hmac password input).take 2) :
    decryptAuthenticate e .fine b password input metaData =
      ⟨.success, ⟨some (e.decrypt (e.kdf password) ((metaData.drop 33).take 16) input), none⟩, input.length⟩ := by
  rw [decryptAuthenticate, guarded, if_pos hb, Cmd.bind_ok (authenticate_fine e h _)]
  rfl

/-- Where they do not, it returns an error and writes nothing, whatever the calls return. -/
theorem decryptAuthenticate_refuses (calls : Outcomes) (b : Buffers) {input metaData password : Bytes}
    (h : metaData.take 2 ≠ (e.hmac password input).take 2) :
    (decryptAuthenticate e calls b password input metaData).error ≠ .success ∧
      (decryptAuthenticate e calls b password input metaData).written.output = none := by
  rw [decryptAuthenticate, guarded]
  by_cases hb : b.check input.length = .success
  · obtain ⟨c, hc, hrun⟩ := authenticate_refuses e calls h ⟨none, none⟩
    rw [if_pos hb, Cmd.bind_error hrun]
    exact ⟨hc, rfl⟩
  · rw [if_neg hb]
    exact ⟨hb, rfl⟩

/-! ### What is accepted -/

/-- The ciphertext, the HMAC or the IV is not that of the output. -/
def Tampered (ciphertext metaData input metaIn : Bytes) : Prop :=
  input ≠ ciphertext ∨ metaIn.take 32 ≠ metaData.take 32 ∨ (metaIn.drop 33).take 16 ≠ (metaData.drop 33).take 16

/-- What the two functions are to do for a plaintext and an input of the same length: decrypting the output of the
    encryption returns the plaintext; and an input that is not that output is refused with nothing written. -/
def AcceptsOnlyItsOwn (b b' : Buffers) (password plaintext iv metaBefore input metaIn : Bytes) : Prop :=
  ∃ ciphertext metaData,
    (encryptAuthenticate e .fine b password plaintext iv metaBefore).error = .success ∧
    (encryptAuthenticate e .fine b password plaintext iv metaBefore).written = ⟨some ciphertext, some metaData⟩ ∧
    (decryptAuthenticate e .fine b' password ciphertext metaData).error = .success ∧
    (decryptAuthenticate e .fine b' password ciphertext metaData).written.output = some plaintext ∧
    (Tampered ciphertext metaData input metaIn → ∀ calls,
      (decryptAuthenticate e calls b' password input metaIn).error ≠ .success ∧
      (decryptAuthenticate e calls b' password input metaIn).written.output = none)

/-- The two fields of the meta data that decrypting reads. -/
theorem sealMeta_fields (password ciphertext before : Bytes) {iv : Bytes} (hiv : iv.length = 16) :
    (sealMeta e password ciphertext iv before).take 2 = (e.hmac password ciphertext).take 2 ∧
      ((sealMeta e password ciphertext iv before).drop 33).take 16 = iv := by
  have hh := e.hmac_length password ciphertext
  have hfront : (e.hmac password ciphertext ++ [1]).length = 33 := by rw [List.length_append, hh, List.length_singleton]
  refine ⟨?_, ?_⟩
  · rw [sealMeta, List.append_assoc, List.append_assoc, List.take_append_of_le_length (by omega)]
  · rw [sealMeta, List.append_assoc, List.drop_left' hfront, List.take_left' hiv]

/-- A tampered input whose HMAC agrees in the first two bytes is accepted. -/
theorem Tampered.accepted {e} {b b' : Buffers} {password plaintext iv metaBefore input metaIn : Bytes}
    (h : Tampered (e.encrypt (e.kdf password) iv plaintext)
      (sealMeta e password (e.encrypt (e.kdf password) iv plaintext) iv metaBefore) input metaIn)
    (hb : b.check plaintext.length = .success) (hb' : b'.check input.length = .success)
    (hcmp : metaIn.take 2 = (e.hmac password input).take 2) :
    ¬AcceptsOnlyItsOwn e b b' password plaintext iv metaBefore input metaIn := by
  rintro ⟨c, m, -, hw, -, -, hrefuses⟩
  rw [encryptAuthenticate_fine e hb] at hw
  simp only [Written.mk.injEq, Option.some.injEq] at hw
  obtain ⟨rfl, rfl⟩ := hw
  have herr := (hrefuses h .fine).1
  rw [decryptAuthenticate_fine e hb' hcmp] at herr
  exact herr rfl

/-- Decrypting the output of the encryption always returns the plaintext. Another input of the same length is
    refused with nothing written if and only if the first two bytes of its HMAC field are not those of the HMAC of
    its ciphertext. -/
theorem accepts_only_its_own_iff {b b' : Buffers} {password plaintext iv metaBefore input metaIn : Bytes}
    (hb : b.check plaintext.length = .success) (hb' : b'.check plaintext.length = .success) (hiv : iv.length = 16)
    (hin : input.length = plaintext.length) :
    AcceptsOnlyItsOwn e b b' password plaintext iv metaBefore input metaIn ↔
      ¬(Tampered (e.encrypt (e.kdf password) iv plaintext)
          (sealMeta e password (e.encrypt (e.kdf password) iv plaintext) iv metaBefore) input metaIn ∧
        metaIn.take 2 = (e.hmac password input).take 2) := by
  constructor
  · rintro h ⟨htam, hcmp⟩
    exact htam.accepted hb (hin ▸ hb') hcmp h
  · intro h
    have henc := encryptAuthenticate_fine e hb password iv metaBefore
    obtain ⟨hfirst, hivm⟩ := sealMeta_fields e password (e.encrypt (e.kdf password) iv plaintext) metaBefore hiv
    have hlen := e.encrypt_length (e.kdf password) iv plaintext
    have hdec := decryptAuthenticate_fine e (b := b') (by rw [hlen]; exact hb') hfirst
    have hmod : plaintext.length % 16 = 0 := by
      by_contra hne
      rw [Buffers.check, if_pos (by tauto)] at hb
      cases hb
    rw [hivm, e.decrypt_encrypt _ _ _ hmod] at hdec
    refine ⟨_, _, by rw [henc], by rw [henc], by rw [hdec], by rw [hdec], fun htam calls => ?_⟩
    exact decryptAuthenticate_refuses e calls b' fun hcmp => h ⟨htam, hcmp⟩

end Storage

/-! ### An example -/

/-- Functions small enough to compute with: the message itself for the HMAC, padded to 32 bytes, and the first byte
    of the IV for the key stream. -/
def toyCrypto : Crypto where
  hmac _ m := (m ++ List.replicate 32 0).take 32
  kdf p := p
  encrypt _ iv d := d.map (· ^^^ iv.headD 0)
  decrypt _ iv d := d.map (· ^^^ iv.headD 0)
  hmac_length _ m := by rw [List.length_take, List.length_append, List.length_replicate]; omega
  encrypt_length _ _ _ := List.length_map _
  decrypt_encrypt _ iv d _ := by
    rw [List.map_map]
    refine List.map_id'' (fun x => ?_) d
    simp only [Function.comp, UInt8.xor_assoc, UInt8.xor_self, UInt8.xor_zero]

/-- Its HMAC is injective on the messages of 16 bytes. -/
theorem toyCrypto_hmac_inj {key m m' : Bytes} (h : m.length = 16) (h' : m'.length = 16)
    (heq : toyCrypto.hmac key m = toyCrypto.hmac key m') : m = m' := by
  have htake := congrArg (List.take 16) heq
  simpa only [toyCrypto, List.take_take, List.take_left' h, List.take_left' h', show min 16 32 = 16 from rfl] using htake

/-- Buffers for 16 bytes. -/
def rowBuffers : Buffers := ⟨0x1000, 0x2000, 0x3000, 16, 0x4000, 64⟩

/-- The output itself is accepted. -/
theorem own_output_accepted :
    AcceptsOnlyItsOwn toyCrypto rowBuffers rowBuffers [7] (List.replicate 16 0) (List.replicate 16 1)
      (List.replicate 64 0) (List.replicate 16 1) (List.replicate 16 1 ++ List.replicate 16 0 ++ [1] ++
        List.replicate 16 1 ++ List.replicate 15 0) :=
  (accepts_only_its_own_iff toyCrypto (by decide) (by decide) (by decide) (by decide)).mpr fun h =>
    absurd h.1 (by simp only [Tampered]; decide)

/-- With an HMAC that is injective on the messages of that length, a changed third byte of the HMAC, a changed IV
    and a changed third byte of the ciphertext are accepted. -/
theorem tampered_accepted :
    (∀ m m' : Bytes, m.length = 16 → m'.length = 16 → toyCrypto.hmac [7] m = toyCrypto.hmac [7] m' → m = m') ∧
    ¬AcceptsOnlyItsOwn toyCrypto rowBuffers rowBuffers [7] (List.replicate 16 0) (List.replicate 16 1)
      (List.replicate 64 0) (List.replicate 16 1) ([1, 1, 0] ++ List.replicate 29 0 ++ [1] ++
        List.replicate 16 1 ++ List.replicate 15 0) ∧
    ¬AcceptsOnlyItsOwn toyCrypto rowBuffers rowBuffers [7] (List.replicate 16 0) (List.replicate 16 1)
      (List.replicate 64 0) (List.replicate 16 1) (List.replicate 16 1 ++ List.replicate 16 0 ++ [1] ++
        List.replicate 16 2 ++ List.replicate 15 0) ∧
    ¬AcceptsOnlyItsOwn toyCrypto rowBuffers rowBuffers [7] (List.replicate 16 0) (List.replicate 16 1)
      (List.replicate 64 0) ([1, 1, 0] ++ List.replicate 13 1) (List.replicate 16 1 ++ List.replicate 16 0 ++ [1] ++
        List.replicate 16 1 ++ List.replicate 15 0) := by
  refine ⟨fun m m' h h' heq => toyCrypto_hmac_inj h h' heq, Tampered.accepted ?_ (by decide) (by decide) (by decide),
    Tampered.accepted ?_ (by decide) (by decide) (by decide), Tampered.accepted ?_ (by decide) (by decide) (by decide)⟩
  · exact .inr (.inl (by decide))
  · exact .inr (.inr (by decide))
  · exact .inl (by decide)

end Qcc730.Securefs
