import Libfw.Base64Url
import Libfw.PathResolution

/-!
# Encrypted shadow paths

`EncryptedPathCodec` of `libfw-core/src/pathmap.rs` under `resolve_client_path`.  A
shadow is `v1.` and the letters of a nonce and a ciphertext; the cipher is a parameter,
of which only `Aead.Lawful` is assumed.

* `decode_eq_ok_iff` — the codec reads its own encodings and nothing else.
* `encrypted_shadow_covers_its_subtree` — through the server a shadow names its
  directory and what lies below it, and a path without a shadow names nothing.
-/

namespace Libfw

open SegmentPaths

/-! ## The cipher -/

def nonceLen : Nat := 12

def tagLen : Nat := 16

/-- A nonce of the cipher. -/
abbrev Nonce := { bytes : List UInt8 // bytes.length = nonceLen }

/-- An authenticated cipher under one key: nonce, associated data, then the message or
the ciphertext. -/
structure Aead where
  encrypt : List UInt8 → List UInt8 → List UInt8 → List UInt8
  decrypt : List UInt8 → List UInt8 → List UInt8 → Option (List UInt8)

/-- It decrypts what it encrypted and rejects everything else; the ciphertext is the
message's length and a tag. -/
structure Aead.Lawful (cipher : Aead) : Prop where
  decrypt_eq_some_iff : ∀ (nonce : Nonce) (aad ct msg : List UInt8),
    cipher.decrypt nonce.1 aad ct = some msg ↔ ct = cipher.encrypt nonce.1 aad msg
  length_encrypt : ∀ (nonce : Nonce) (aad msg : List UInt8),
    (cipher.encrypt nonce.1 aad msg).length = msg.length + tagLen

/-! ## The codec -/

structure EncryptedPathCodec where
  cipher : Aead

namespace EncryptedPathCodec

def shadowVersion : Text := "v1".toList

def associatedData : List UInt8 := utf8 "libfw-path-v1".toList

/-- `encode`, with the nonce it draws. -/
def encode (codec : EncryptedPathCodec) (nonce : Nonce) (real : Text) : Text :=
  let ct := codec.cipher.encrypt nonce.1 associatedData (utf8 real)
  shadowVersion ++ '.' :: Base64Url.encode (nonce.1 ++ ct)

/-- `decode` -/
def decode (codec : EncryptedPathCodec) (shadow : Text) : Except PathCodecError Text :=
  match shadow.splitOnce '.' with
  | none => .error (.invalidShadow "missing version prefix".toList)
  | some (version, payload) =>
      if version ≠ shadowVersion then .error (.unknownVersion version)
      else
        match Base64Url.decode payload with
        | none => .error (.invalidShadow "bad base64".toList)
        | some blob =>
            if blob.length < nonceLen + tagLen then .error (.invalidShadow "too short".toList)
            else
              match codec.cipher.decrypt (blob.take nonceLen) associatedData
                  (blob.drop nonceLen) with
              | none =>
                  .error (.invalidShadow "authentication failed (tampered?)".toList)
              | some plain =>
                  match fromUtf8 plain with
                  | none => .error (.invalidShadow "not valid UTF-8".toList)
                  | some real => .ok real

/-- The codec with the nonce of every path drawn. -/
def toPathCodec (codec : EncryptedPathCodec) (nonces : Text → Nonce) : PathCodec where
  encode := fun real => codec.encode (nonces real) real
  decode := codec.decode

/-! ## What the codec reads -/

theorem dot_not_mem_shadowVersion : '.' ∉ shadowVersion := by decide

theorem encode_ne_nil (codec : EncryptedPathCodec) (nonce : Nonce) (real : Text) :
    codec.encode nonce real ≠ [] := by
  unfold encode
  simp

theorem head?_encode (codec : EncryptedPathCodec) (nonce : Nonce) (real : Text) :
    (codec.encode nonce real).head? = some 'v' := by
  unfold encode
  rw [List.head?_append]
  rfl

/-- The letters of an encoding: no slash, no NUL. -/
theorem mem_encode {codec : EncryptedPathCodec} {nonce : Nonce} {real : Text} {c : Char}
    (h : c ∈ codec.encode nonce real) : c ∈ shadowVersion ∨ c = '.' ∨ c ∈ Base64Url.alphabet := by
  unfold encode at h
  rw [List.mem_append, List.mem_cons] at h
  rcases h with hversion | hdot | hpayload
  · exact Or.inl hversion
  · exact Or.inr (Or.inl hdot)
  · exact Or.inr (Or.inr (Base64Url.digit_of_mem_encode hpayload))

theorem slash_not_mem_encode (codec : EncryptedPathCodec) (nonce : Nonce) (real : Text) :
    '/' ∉ codec.encode nonce real := by
  intro h
  have hletters : '/' ∉ shadowVersion ∧ '/' ∉ Base64Url.alphabet := by decide
  rcases mem_encode h with hversion | hdot | halphabet
  · exact hletters.1 hversion
  · exact absurd hdot (by decide)
  · exact hletters.2 halphabet

theorem nul_not_mem_encode (codec : EncryptedPathCodec) (nonce : Nonce) (real : Text) :
    Char.ofNat 0 ∉ codec.encode nonce real := by
  intro h
  have hletters : Char.ofNat 0 ∉ shadowVersion ∧ Char.ofNat 0 ∉ Base64Url.alphabet := by decide
  rcases mem_encode h with hversion | hdot | halphabet
  · exact hletters.1 hversion
  · exact absurd hdot (by decide)
  · exact hletters.2 halphabet

/-- An encoding is one segment of a path. -/
theorem plainSegment_encode (codec : EncryptedPathCodec) (nonce : Nonce) (real : Text) :
    PlainSegment (codec.encode nonce real) := by
  have hhead := head?_encode codec nonce real
  exact {
    nonempty := encode_ne_nil codec nonce real
    noSlash := slash_not_mem_encode codec nonce real
    noNul := nul_not_mem_encode codec nonce real
    notDot := fun h => absurd (h ▸ hhead) (by decide)
    notDotDot := fun h => absurd (h ▸ hhead) (by decide) }

/-- A lawful cipher's codec decodes its encodings. -/
theorem decode_encode {codec : EncryptedPathCodec} (hlawful : codec.cipher.Lawful)
    (nonce : Nonce) (real : Text) : codec.decode (codec.encode nonce real) = .ok real := by
  have hlen := hlawful.length_encrypt nonce associatedData (utf8 real)
  have hdecrypt := (hlawful.decrypt_eq_some_iff nonce associatedData _ (utf8 real)).2 rfl
  unfold encode decode
  rw [Text.splitOnce_append _ dot_not_mem_shadowVersion]
  simp only [ne_eq, not_true_eq_false, if_false, Base64Url.decode_encode]
  have hsize : ¬ (nonce.1 ++ codec.cipher.encrypt nonce.1 associatedData (utf8 real)).length
      < nonceLen + tagLen := by
    rw [List.length_append, nonce.2, hlen]
    omega
  rw [if_neg hsize, List.take_left' nonce.2, List.drop_left' nonce.2, hdecrypt]
  simp only [fromUtf8_utf8]

/-- **The codec reads its own encodings and nothing else.** -/
theorem decode_eq_ok_iff {codec : EncryptedPathCodec} (hlawful : codec.cipher.Lawful)
    {shadow real : Text} :
    codec.decode shadow = .ok real ↔ ∃ nonce, shadow = codec.encode nonce real := by
  constructor
  · intro h
    unfold decode at h
    split at h
    · cases h
    · next version payload hsplit =>
        split at h
        · cases h
        · next hversion =>
            split at h
            · cases h
            · next blob hblob =>
                split at h
                · cases h
                · next hsize =>
                    split at h
                    · cases h
                    · next plain hplain =>
                        split at h
                        · cases h
                        · next text htext =>
                            cases h
                            have hlen : (blob.take nonceLen).length = nonceLen := by
                              rw [List.length_take]
                              omega
                            let nonce : Nonce := ⟨blob.take nonceLen, hlen⟩
                            have hct := (hlawful.decrypt_eq_some_iff nonce _ _ _).1 hplain
                            refine ⟨nonce, ?_⟩
                            obtain ⟨hshadow, -⟩ := Text.eq_of_splitOnce hsplit
                            have hwhole : nonce.1 ++ blob.drop nonceLen = blob :=
                              List.take_append_drop _ _
                            unfold encode
                            dsimp only
                            rw [utf8_of_fromUtf8 htext, ← hct, hwhole,
                              Base64Url.encode_of_decode hblob, hshadow, not_not.1 hversion]
  · intro h
    obtain ⟨nonce, rfl⟩ := h
    exact decode_encode hlawful nonce real

end EncryptedPathCodec

/-! ## Prefixes of a shadow -/

/-- The prefix before a slash is a prefix by segments. -/
theorem splitOn_take_prefix {shadow : Text} {slash : Nat} (h : shadow[slash]? = some '/') :
    (shadow.take slash).splitOn '/' <+: shadow.splitOn '/' := by
  obtain ⟨hlt, hget⟩ := List.getElem?_eq_some_iff.1 h
  have hcut : shadow = shadow.take slash ++ '/' :: shadow.drop (slash + 1) := by
    rw [← hget, List.getElem_cons_drop hlt, List.take_append_drop]
  refine ⟨(shadow.drop (slash + 1)).splitOn '/', ?_⟩
  rw [← List.splitOn_append_cons_self, ← hcut]

/-! ## Through the server -/

/-- The codec's answer for a canonical path is what the server goes on with. -/
theorem decodeClientPath_of_canonical {codec : PathCodec} {shadow : Text}
    (h : Canonical shadow) :
    decodeClientPath codec shadow =
      decodeShadow codec shadow >>= fun real =>
        (validateRelPath real).mapError PathResolveError.invalid := by
  have hvalid : validateRelPath shadow = .ok shadow := h
  unfold decodeClientPath
  rw [hvalid]
  rfl

/-- Canonical paths join to one. -/
theorem canonical_joinPrefix {root rest : Text} (hroot : Canonical root)
    (hrest : Canonical rest) : Canonical (joinPrefix root rest) := by
  have hus := hroot.plainSegments
  have hvs := hrest.plainSegments
  rw [← joinSegments_segments root, ← joinSegments_segments rest,
    joinPrefix_joinSegments (isSegment_of_plain hus) (isSegment_of_plain hvs)]
  apply canonical_joinSegments
  intro s hs
  rcases List.mem_append.1 hs with hs | hs
  · exact hus s hs
  · exact hvs s hs

theorem canonical_encode (codec : EncryptedPathCodec) (nonce : Nonce) (real : Text) :
    Canonical (codec.encode nonce real) := by
  have hone : Canonical (joinSegments [codec.encode nonce real]) := by
    apply canonical_joinSegments
    intro s hs
    rw [List.mem_singleton.1 hs]
    exact codec.plainSegment_encode nonce real
  exact hone

section

variable {codec : EncryptedPathCodec} (hlawful : codec.cipher.Lawful) (nonces : Text → Nonce)

include hlawful

/-- **A directory's shadow, alone or before a relative path, is the directory.** -/
theorem decodeShadow_joinPrefix (nonce : Nonce) (d rest : Text) :
    decodeShadow (codec.toPathCodec nonces) (joinPrefix (codec.encode nonce d) rest) =
      .ok (joinPrefix d rest) := by
  have hne := codec.encode_ne_nil nonce d
  have hnoslash := codec.slash_not_mem_encode nonce d
  have hdecoded : (codec.toPathCodec nonces).decode (codec.encode nonce d) = .ok d :=
    EncryptedPathCodec.decode_encode hlawful nonce d
  by_cases hroot : rest = []
  · have hself : joinPrefix (codec.encode nonce d) rest = codec.encode nonce d := by
      simp [joinPrefix, hne, hroot]
    have hback : joinPrefix d rest = d := by
      simp only [joinPrefix, hroot, if_true, ite_eq_right_iff]
      exact Eq.symm
    rw [hself, hback, decodeShadow, if_neg hne, hdecoded]
  · have hself : joinPrefix (codec.encode nonce d) rest = codec.encode nonce d ++ '/' :: rest := by
      simp [joinPrefix, hne, hroot]
    have hback : joinPrefix d rest = if d = [] then rest else d ++ '/' :: rest := by
      simp [joinPrefix, hroot]
    generalize codec.encode nonce d = enc at *
    -- a text with a slash in it is no encoding
    have hlong : ∀ {t : Text}, '/' ∈ t → ∀ r, (codec.toPathCodec nonces).decode t ≠ .ok r := by
      intro t ht r hok
      obtain ⟨n, hn⟩ := (EncryptedPathCodec.decode_eq_ok_iff hlawful).1 hok
      exact codec.slash_not_mem_encode n r (hn ▸ ht)
    have hcompound : decodeCompound (codec.toPathCodec nonces) (enc ++ '/' :: rest) =
        some (joinPrefix d rest) := by
      have hfound := @decodeCompoundFrom_eq_some (codec.toPathCodec nonces) (enc ++ '/' :: rest) d
        enc.length (enc ++ '/' :: rest).length (by simp) (by simp)
        (by rw [List.take_left]; exact hdecoded) ?_
      · have hdrop : (enc ++ '/' :: rest).drop (enc.length + 1) = rest := by
          rw [List.drop_append]
          simp
        rw [decodeCompound, hfound, hdrop, hback]
      · intro k hk _ r
        apply hlong
        rw [List.take_append, List.mem_append]
        right
        obtain ⟨m, hm⟩ := Nat.exists_eq_add_of_lt hk
        have hcount : k - enc.length = m + 1 := by omega
        rw [hcount, List.take_succ_cons]
        exact List.mem_cons_self
    rw [hself, decodeShadow, if_neg (by simp)]
    cases hwhole : (codec.toPathCodec nonces).decode (enc ++ '/' :: rest) with
    | ok r => exact absurd hwhole (hlong (by simp) r)
    | error e => simp only [hcompound]

/-- **What has no encoding among its prefixes is refused.** -/
theorem decodeShadow_of_no_encoding {shadow : Text} (hne : shadow ≠ [])
    (hnone : ∀ pre, pre ≠ [] → pre <+: segments shadow →
      ∀ nonce d, joinSegments pre ≠ codec.encode nonce d) :
    ∃ e, codec.decode shadow = .error e ∧
      decodeShadow (codec.toPathCodec nonces) shadow = .error (.codec e) := by
  have hsplit : segments shadow = shadow.splitOn '/' := if_neg hne
  have hcompound : decodeCompound (codec.toPathCodec nonces) shadow = none := by
    apply decodeCompoundFrom_eq_none
    intro slash _ hslash real hok
    obtain ⟨nonce, hnonce⟩ := (EncryptedPathCodec.decode_eq_ok_iff hlawful).1 hok
    have hcut : shadow.take slash ≠ [] := by
      rw [hnonce]
      exact codec.encode_ne_nil nonce real
    have hpre : segments (shadow.take slash) = (shadow.take slash).splitOn '/' := if_neg hcut
    apply hnone (segments (shadow.take slash)) ?_ ?_ nonce real
    · rw [joinSegments_segments, hnonce]
    · rw [hpre]
      exact List.splitOn_ne_nil _ _
    · rw [hpre, hsplit]
      exact splitOn_take_prefix hslash
  cases hwhole : codec.decode shadow with
  | ok real =>
      obtain ⟨nonce, hnonce⟩ := (EncryptedPathCodec.decode_eq_ok_iff hlawful).1 hwhole
      apply absurd _ (hnone (segments shadow) ?_ (List.prefix_refl _) nonce real)
      · rw [joinSegments_segments, hnonce]
      · rw [hsplit]
        exact List.splitOn_ne_nil _ _
  | error e =>
      have hdecode : (codec.toPathCodec nonces).decode shadow = .error e := hwhole
      refine ⟨e, rfl, ?_⟩
      rw [decodeShadow, if_neg hne, hdecode]
      simp only [hcompound]

/-- **An encrypted directory shadow covers exactly its subtree.** -/
theorem encrypted_shadow_covers_its_subtree :
    (∀ (nonce : Nonce) (d rest : Text), Canonical d → Canonical rest →
      decodeClientPath (codec.toPathCodec nonces) (joinPrefix (codec.encode nonce d) rest) =
        .ok (joinPrefix d rest)) ∧
    ∀ shadow, Canonical shadow → shadow ≠ [] →
      (∀ pre, pre ≠ [] → pre <+: segments shadow →
        ∀ nonce d, joinSegments pre ≠ codec.encode nonce d) →
      ∃ e, codec.decode shadow = .error e ∧
        decodeClientPath (codec.toPathCodec nonces) shadow = .error (.codec e) := by
  constructor
  · intro nonce d rest hd hrest
    have hresult : validateRelPath (joinPrefix d rest) = .ok (joinPrefix d rest) :=
      canonical_joinPrefix hd hrest
    rw [decodeClientPath_of_canonical (canonical_joinPrefix (canonical_encode codec nonce d) hrest),
      decodeShadow_joinPrefix hlawful nonces nonce d rest]
    simp only [bind, Except.bind, hresult, Except.mapError]
  · intro shadow hshadow hne hnone
    obtain ⟨e, hdecode, herror⟩ := decodeShadow_of_no_encoding hlawful nonces hne hnone
    refine ⟨e, hdecode, ?_⟩
    rw [decodeClientPath_of_canonical hshadow, herror]
    rfl

end

/-! ### A cipher that only tags -/

def noTag : List UInt8 := List.replicate tagLen 0

/-- The message followed by a constant tag. -/
def taggingCipher : Aead where
  encrypt := fun _ _ msg => msg ++ noTag
  decrypt := fun _ _ ct =>
    if noTag <:+ ct then some (ct.take (ct.length - tagLen)) else none

theorem taggingCipher_lawful : taggingCipher.Lawful := by
  constructor
  · intro nonce aad ct msg
    simp only [taggingCipher, Option.ite_none_right_eq_some, Option.some.injEq]
    constructor
    · intro h
      obtain ⟨⟨front, hfront⟩, htake⟩ := h
      have hlen : ct.length = front.length + tagLen := by
        rw [← hfront, List.length_append, noTag, List.length_replicate]
      rw [hlen, Nat.add_sub_cancel, ← hfront, List.take_left] at htake
      rw [← htake, hfront]
    · intro h
      rw [h]
      constructor
      · exact List.suffix_append _ _
      · rw [List.length_append, noTag, List.length_replicate, Nat.add_sub_cancel, List.take_left]
  · intro nonce aad msg
    simp only [taggingCipher, List.length_append, noTag, List.length_replicate]

def zeroNonce : Nonce := ⟨List.replicate nonceLen 0, List.length_replicate⟩

theorem docs_shadow_covers_docs :
    decodeClientPath ((EncryptedPathCodec.mk taggingCipher).toPathCodec fun _ => zeroNonce)
        (joinPrefix ((EncryptedPathCodec.mk taggingCipher).encode zeroNonce "docs".toList)
          "v1.x/a.txt".toList) = .ok (joinPrefix "docs".toList "v1.x/a.txt".toList) ∧
      ∃ e, (EncryptedPathCodec.mk taggingCipher).decode "docs".toList = .error e ∧
        decodeClientPath ((EncryptedPathCodec.mk taggingCipher).toPathCodec fun _ => zeroNonce)
          "docs".toList = .error (.codec e) := by
  obtain ⟨hcovers, hrefuses⟩ := @encrypted_shadow_covers_its_subtree ⟨taggingCipher⟩
    taggingCipher_lawful fun _ => zeroNonce
  constructor
  · exact hcovers zeroNonce _ _ (by decide) (by decide)
  · apply hrefuses _ (by decide) (by decide)
    intro pre hne hpre nonce d heq
    have hsegs : segments "docs".toList = ["docs".toList] := by decide
    rw [hsegs, List.prefix_cons_iff] at hpre
    rcases hpre with hnil | ⟨t, ht, hrest⟩
    · exact hne hnil
    · have hhead := congrArg List.head? heq
      rw [EncryptedPathCodec.head?_encode, ht, List.prefix_nil.1 hrest] at hhead
      exact absurd hhead (by decide)

end Libfw
