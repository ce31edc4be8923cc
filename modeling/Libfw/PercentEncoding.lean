import Libfw.SegmentPaths

/-!
# Percent encoding

An encoder keeps some bytes as they are and writes the others as `%` and two hex digits; it is
given by the bytes it keeps.  If these are ASCII and not `%` (`Plain`), decoding undoes it
(`decode_encode`), and two such encoders agree on exactly the bytes that both keep or neither
does (`encode_eq_iff`).  A kept separator goes on separating the same words
(`splitOn_encode`).
-/

namespace PercentEncoding

open SegmentPaths

/-! ## Digits -/

/-- An upper-case hex digit. -/
def hexDigit (n : Nat) : Char := Char.ofNat (if n < 10 then 48 + n else 55 + n)

/-- The value of a hex digit, of either case. -/
def hexValue (b : UInt8) : Option Nat :=
  let n := b.toNat
  if 48 ≤ n ∧ n < 58 then some (n - 48)
  else if 65 ≤ n ∧ n < 71 then some (n - 55)
  else if 97 ≤ n ∧ n < 103 then some (n - 87)
  else none

/-- A character of the basic alphabet as a byte. -/
def asciiByte (c : Char) : UInt8 := UInt8.ofNat c.toNat

theorem hexDigit_spec (n : Fin 16) :
    (hexDigit n).toNat < 128 ∧ hexValue (asciiByte (hexDigit n)) = some n.val := by
  decide +revert

/-! ## Encoding and decoding -/

/-- `%` and the two digits of a byte. -/
def percent (b : UInt8) : List Char := ['%', hexDigit (b.toNat / 16), hexDigit (b.toNat % 16)]

section Encoder

variable (keep : UInt8 → Bool)

def encodeByte (b : UInt8) : List Char := if keep b = true then [Char.ofNat b.toNat] else percent b

def encode (bytes : List UInt8) : List Char := bytes.flatMap (encodeByte keep)

end Encoder

/-- A `%` that no two hex digits follow stays. -/
def decode : List UInt8 → List UInt8
  | [] => []
  | [b] => [b]
  | [b, c] => [b, c]
  | b :: hi :: lo :: rest =>
      if b = 0x25 then
        match hexValue hi, hexValue lo with
        | some h, some l => UInt8.ofNat (16 * h + l) :: decode rest
        | _, _ => b :: decode (hi :: lo :: rest)
      else b :: decode (hi :: lo :: rest)

/-- The bytes that are kept are ASCII, and `%` is not among them. -/
structure Plain (keep : UInt8 → Bool) : Prop where
  percent : keep 0x25 = false
  ascii : ∀ b, keep b = true → b.toNat < 128

variable {keep keep' : UInt8 → Bool}

@[simp] theorem encode_nil : encode keep [] = [] := rfl

theorem encode_cons (b : UInt8) (bytes : List UInt8) :
    encode keep (b :: bytes) = encodeByte keep b ++ encode keep bytes := rfl

theorem encode_congr {bytes : List UInt8} (h : ∀ b ∈ bytes, keep b = keep' b) :
    encode keep bytes = encode keep' bytes := by
  apply List.flatMap_congr
  intro b hb
  unfold encodeByte
  rw [h b hb]

/-- A code point is that of its character. -/
theorem toNat_ofNat {n : Nat} (h : n.isValidChar) : (Char.ofNat n).toNat = n := by
  unfold Char.ofNat
  rw [dif_pos h]
  rfl

theorem toNat_ofNat_byte (b : UInt8) : (Char.ofNat b.toNat).toNat = b.toNat := by
  have hlt : b.toNat < 256 := b.toNat_lt
  exact toNat_ofNat (Or.inl (by omega))

theorem ascii_percent (b : UInt8) : ∀ c ∈ percent b, c.toNat < 128 := by
  intro c hc
  have hlt : b.toNat < 256 := b.toNat_lt
  have hhi := (hexDigit_spec ⟨b.toNat / 16, by omega⟩).1
  have hlo := (hexDigit_spec ⟨b.toNat % 16, by omega⟩).1
  simp only [percent, List.mem_cons, List.not_mem_nil, or_false] at hc
  rcases hc with rfl | rfl | rfl
  · decide
  · exact hhi
  · exact hlo

/-- What an encoder writes is ASCII. -/
theorem ascii_encode (h : Plain keep) {bytes : List UInt8} :
    ∀ c ∈ encode keep bytes, c.toNat < 128 := by
  intro c hc
  obtain ⟨b, -, hc⟩ := List.mem_flatMap.1 hc
  unfold encodeByte at hc
  split at hc
  · next hkeep =>
      rw [List.mem_singleton.1 hc, toNat_ofNat_byte]
      exact h.ascii b hkeep
  · exact ascii_percent b c hc

theorem decode_cons {b : UInt8} (h : b ≠ 0x25) (bytes : List UInt8) :
    decode (b :: bytes) = b :: decode bytes := by
  match bytes with
  | [] => rfl
  | [c] => rfl
  | hi :: lo :: rest => rw [decode, if_neg h]

/-- Three characters are read back as the byte. -/
theorem decode_percent (b : UInt8) (rest : List UInt8) :
    decode ((percent b).map asciiByte ++ rest) = b :: decode rest := by
  have hlt : b.toNat < 256 := b.toNat_lt
  have hhi := (hexDigit_spec ⟨b.toNat / 16, by omega⟩).2
  have hlo := (hexDigit_spec ⟨b.toNat % 16, by omega⟩).2
  have hbyte : UInt8.ofNat (16 * (b.toNat / 16) + b.toNat % 16) = b := by
    rw [Nat.div_add_mod]
    exact UInt8.ofNat_toNat
  have hsign : asciiByte '%' = 0x25 := rfl
  unfold percent
  rw [List.map_cons, List.map_cons, List.map_cons, List.map_nil, List.cons_append,
    List.cons_append, List.cons_append, List.nil_append, decode, if_pos hsign]
  simp only [hhi, hlo, hbyte]

/-- **Decoding undoes encoding.** -/
theorem decode_encode (h : Plain keep) (bytes : List UInt8) :
    decode ((encode keep bytes).map asciiByte) = bytes := by
  induction bytes with
  | nil => rfl
  | cons b bytes ih =>
      rw [encode_cons, List.map_append]
      unfold encodeByte
      split
      · next hkeep =>
          have hb : b ≠ 0x25 := by
            intro hb
            rw [hb, h.percent] at hkeep
            cases hkeep
          have hbyte : asciiByte (Char.ofNat b.toNat) = b := by
            unfold asciiByte
            rw [toNat_ofNat_byte, UInt8.ofNat_toNat]
          rw [List.map_singleton, hbyte, List.singleton_append, decode_cons hb, ih]
      · rw [decode_percent, ih]

/-! ## Two encoders -/

/-- A byte is kept by both encoders or by neither, if they begin alike. -/
theorem keep_eq_of_encode (h : Plain keep) (h' : Plain keep') {b : UInt8} {s t : List Char}
    (heq : encodeByte keep b ++ s = encodeByte keep' b ++ t) : keep b = keep' b := by
  have hkept : ∀ {k : UInt8 → Bool}, Plain k → k b = true → Char.ofNat b.toNat ≠ '%' := by
    intro k hk hkeep hsign
    have hnat : b.toNat = 0x25 := by
      rw [← toNat_ofNat_byte, hsign]
      rfl
    have hb : b = 0x25 := UInt8.toNat_inj.1 hnat
    rw [hb, hk.percent] at hkeep
    cases hkeep
  have hhead := congrArg List.head? heq
  unfold encodeByte percent at hhead
  cases hb : keep b with
  | true =>
      cases hb' : keep' b with
      | true => rfl
      | false =>
          rw [hb, hb'] at hhead
          exact absurd (Option.some.inj hhead) (hkept h hb)
  | false =>
      cases hb' : keep' b with
      | true =>
          rw [hb, hb'] at hhead
          exact absurd (Option.some.inj hhead).symm (hkept h' hb')
      | false => rfl

/-- **Two encoders write the same exactly where they keep the same.** -/
theorem encode_eq_iff (h : Plain keep) (h' : Plain keep') {bytes : List UInt8} :
    encode keep bytes = encode keep' bytes ↔ ∀ b ∈ bytes, keep b = keep' b := by
  refine ⟨?_, encode_congr⟩
  intro heq
  induction bytes with
  | nil => exact fun _ hb => absurd hb List.not_mem_nil
  | cons b bytes ih =>
      rw [encode_cons, encode_cons] at heq
      have hb := keep_eq_of_encode h h' heq
      have hrest : encode keep bytes = encode keep' bytes := by
        unfold encodeByte at heq
        rw [hb] at heq
        exact List.append_cancel_left heq
      intro c hc
      rcases List.mem_cons.1 hc with rfl | hc
      · exact hb
      · exact ih hrest c hc

/-! ## Words -/

/-- Where a letter becomes a separator and no other letter's word has one, the words are those
of the letters between. -/
theorem splitOn_flatMap {α β : Type} [DecidableEq α] [DecidableEq β] {f : α → List β} {a : α}
    {b : β} (hsep : f a = [b]) (hother : ∀ x, x ≠ a → b ∉ f x) (xs : List α) :
    (xs.flatMap f).splitOn b = (xs.splitOn a).map fun w => w.flatMap f := by
  have hwords : ∀ w ∈ (xs.splitOn a).map fun w => w.flatMap f, b ∉ w := by
    intro w hw hb
    obtain ⟨v, hv, rfl⟩ := List.mem_map.1 hw
    obtain ⟨x, hx, hb⟩ := List.mem_flatMap.1 hb
    apply hother x _ hb
    intro hxa
    exact sep_not_mem_splitOn a hv (hxa ▸ hx)
  have hjoin : ∀ ws : List (List α), ([a].intercalate ws).flatMap f =
      [b].intercalate (ws.map fun w => w.flatMap f) := by
    intro ws
    rw [← join_eq_intercalate, ← join_eq_intercalate]
    induction ws with
    | nil => rfl
    | cons w ws ih =>
        cases ws with
        | nil => simp
        | cons v ws =>
            rw [join_cons_cons, List.flatMap_append, List.flatMap_cons, hsep, ih]
            rfl
  have hne : (xs.splitOn a).map (fun w => w.flatMap f) ≠ [] := by
    simp [List.splitOn_ne_nil]
  rw [← List.splitOn_intercalate b hwords hne, ← hjoin, List.intercalate_splitOn]

/-- **A separator that is kept goes on separating the same words.** -/
theorem splitOn_encode (h : Plain keep) {sep : UInt8} (hsep : keep sep = true)
    (hdigit : ∀ n < 16, hexDigit n ≠ Char.ofNat sep.toNat) (bytes : List UInt8) :
    (encode keep bytes).splitOn (Char.ofNat sep.toNat) =
      (bytes.splitOn sep).map (encode keep) := by
  apply splitOn_flatMap
  · unfold encodeByte
    rw [if_pos hsep]
  · intro b hb hmem
    have hlt : b.toNat < 256 := b.toNat_lt
    unfold encodeByte percent at hmem
    split at hmem
    · have heq := congrArg Char.toNat (List.mem_singleton.1 hmem)
      rw [toNat_ofNat_byte, toNat_ofNat_byte] at heq
      exact hb (UInt8.toNat_inj.1 heq.symm)
    · simp only [List.mem_cons, List.not_mem_nil, or_false] at hmem
      rcases hmem with hsign | hhi | hlo
      · have heq := congrArg Char.toNat hsign
        rw [toNat_ofNat_byte] at heq
        have hsep' : sep = 0x25 := UInt8.toNat_inj.1 heq
        rw [hsep', h.percent] at hsep
        cases hsep
      · exact hdigit _ (by omega) hhi.symm
      · exact hdigit _ (by omega) hlo.symm

end PercentEncoding
