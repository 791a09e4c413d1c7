import ManifestForm.Text.Basic
import Mathlib.Data.List.Basic

/-!
# Which octets are UTF-8

Octets decode to a text exactly when they are its encoding. The octets of a
single character come in four shapes, and these are what the encoder writes and
what the decoder takes in one go.
-/

namespace ManifestForm.Utf8

/-- An octet after the first one of a character. -/
def IsTail (b : UInt8) : Prop := 0x80 ≤ b.toNat ∧ b.toNat ≤ 0xBF

/-- The octets of a character with a number. The second one of three or four is bounded further,
against longer octets than needed, surrogates and numbers that are too large. -/
inductive CharOctets : List UInt8 → Nat → Prop
  | one {a : UInt8} (hfirst : a.toNat < 0x80) : CharOctets [a] a.toNat
  | two {a b : UInt8} (hfirst : 0xC2 ≤ a.toNat ∧ a.toNat < 0xE0) (htail : IsTail b) :
      CharOctets [a, b] ((a.toNat - 0xC0) * 64 + (b.toNat - 0x80))
  | three {a b c : UInt8} (hfirst : 0xE0 ≤ a.toNat ∧ a.toNat < 0xF0) (htail : IsTail b)
      (hleast : a.toNat = 0xE0 → 0xA0 ≤ b.toNat) (hmost : a.toNat = 0xED → b.toNat ≤ 0x9F)
      (hlast : IsTail c) :
      CharOctets [a, b, c] (((a.toNat - 0xE0) * 64 + (b.toNat - 0x80)) * 64 + (c.toNat - 0x80))
  | four {a b c d : UInt8} (hfirst : 0xF0 ≤ a.toNat ∧ a.toNat < 0xF5) (htail : IsTail b)
      (hleast : a.toNat = 0xF0 → 0x90 ≤ b.toNat) (hmost : a.toNat = 0xF4 → b.toNat ≤ 0x8F)
      (hthird : IsTail c) (hlast : IsTail d) :
      CharOctets [a, b, c, d]
        ((((a.toNat - 0xF0) * 64 + (b.toNat - 0x80)) * 64 + (c.toNat - 0x80)) * 64 +
          (d.toNat - 0x80))

section Encoding

theorem toNat_bounds (c : Char) :
    c.toNat < 0xD800 ∨ (0xDFFF < c.toNat ∧ c.toNat < 0x110000) := c.valid

/-- A character is written with the octets that the library gives it. -/
theorem encodeChar_eq (c : Char) : encodeChar c = String.utf8EncodeChar c := by
  have hbounds := toNat_bounds c
  simp only [encodeChar, String.utf8EncodeChar, Char.toNat, Nat.toUInt8] at hbounds ⊢
  split_ifs
  all_goals
    first
    | omega
    | simp only [List.cons.injEq, ← UInt8.toNat_inj, UInt8.toNat_ofNat', and_true]
      try omega

/-- No character but the line feed itself has the line feed among its bytes. -/
theorem lineFeed_mem_utf8EncodeChar_iff {c : Char} :
    Text.lineFeed ∈ String.utf8EncodeChar c ↔ c = '\n' := by
  constructor
  · intro h
    have hbyte : 10 ∈ (String.utf8EncodeChar c).map UInt8.toNat := List.mem_map.mpr ⟨_, h, rfl⟩
    have hval : c.val.toNat = c.toNat := rfl
    have hcode : c.toNat = 10 := by
      simp only [String.utf8EncodeChar, hval] at hbyte
      split at hbyte
      · simp at hbyte
        omega
      · -- Each byte of a longer character is at least 128.
        repeat' split at hbyte
        all_goals
          simp at hbyte
          omega
    exact Char.toNat_inj.mp hcode
  · rintro rfl
    decide

/-- The octets of a text. -/
def octetsOf (text : String) : List UInt8 := text.toByteArray.data.toList

theorem octetsOf_eq_encode (text : String) : octetsOf text = encode text.toList := by
  rw [octetsOf, ← String.utf8Encode_toList, List.utf8Encode, List.data_toByteArray, encode]
  exact List.flatMap_congr fun c _ => (encodeChar_eq c).symm

theorem lineFeed_mem_octetsOf_iff {text : String} :
    Text.lineFeed ∈ octetsOf text ↔ '\n' ∈ text.toList := by
  simp only [octetsOf_eq_encode, encode, List.mem_flatMap, encodeChar_eq,
    lineFeed_mem_utf8EncodeChar_iff, exists_eq_right]

/-- A character is written with octets of its number. -/
theorem charOctets_encodeChar (c : Char) : CharOctets (encodeChar c) c.toNat := by
  have hbounds := toNat_bounds c
  simp only [encodeChar, Nat.toUInt8]
  split_ifs with hone htwo hthree
  · have hfirst : (UInt8.ofNat c.toNat).toNat = c.toNat := by
      rw [UInt8.toNat_ofNat']
      omega
    have hshape := CharOctets.one (hfirst.symm ▸ hone)
    rwa [hfirst] at hshape
  · have hshape := CharOctets.two (a := UInt8.ofNat (0xC0 + c.toNat / 64))
      (b := UInt8.ofNat (0x80 + c.toNat % 64))
    simp only [IsTail, UInt8.toNat_ofNat'] at hshape
    convert hshape (by omega) (by omega) using 1
    omega
  · have hshape := CharOctets.three (a := UInt8.ofNat (0xE0 + c.toNat / 4096))
      (b := UInt8.ofNat (0x80 + c.toNat / 64 % 64)) (c := UInt8.ofNat (0x80 + c.toNat % 64))
    simp only [IsTail, UInt8.toNat_ofNat'] at hshape
    convert hshape (by omega) (by omega) (by omega) (by omega) (by omega) using 1
    omega
  · have hshape := CharOctets.four (a := UInt8.ofNat (0xF0 + c.toNat / 262144))
      (b := UInt8.ofNat (0x80 + c.toNat / 4096 % 64)) (c := UInt8.ofNat (0x80 + c.toNat / 64 % 64))
      (d := UInt8.ofNat (0x80 + c.toNat % 64))
    simp only [IsTail, UInt8.toNat_ofNat'] at hshape
    convert hshape (by omega) (by omega) (by omega) (by omega) (by omega) (by omega) using 1
    omega

/-- Octets of a number are those of its character. -/
theorem CharOctets.encodeChar_ofNat {octets : List UInt8} {n : Nat} (hshape : CharOctets octets n) :
    encodeChar (Char.ofNat n) = octets := by
  have hnumber : n.isValidChar → (Char.ofNat n).toNat = n := by
    intro hvalid
    rw [Char.ofNat, dif_pos hvalid]
    rfl
  simp only [Nat.isValidChar] at hnumber
  simp only [encodeChar, Nat.toUInt8]
  cases hshape with
  | one hfirst =>
      rw [hnumber (by omega), if_pos hfirst, UInt8.ofNat_toNat]
  | two hfirst htail =>
      simp only [IsTail] at htail
      rw [hnumber (by omega), if_neg (by omega), if_pos (by omega)]
      simp only [List.cons.injEq, ← UInt8.toNat_inj, UInt8.toNat_ofNat', and_true]
      omega
  | three hfirst htail hleast hmost hlast =>
      simp only [IsTail] at htail hlast
      rw [hnumber (by omega), if_neg (by omega), if_neg (by omega), if_pos (by omega)]
      simp only [List.cons.injEq, ← UInt8.toNat_inj, UInt8.toNat_ofNat', and_true]
      omega
  | four hfirst htail hleast hmost hthird hlast =>
      simp only [IsTail] at htail hthird hlast
      rw [hnumber (by omega), if_neg (by omega), if_neg (by omega), if_neg (by omega)]
      simp only [List.cons.injEq, ← UInt8.toNat_inj, UInt8.toNat_ofNat', and_true]
      omega

end Encoding

section Steps

variable {p : Pending} {b : UInt8} {octets : List UInt8} {c : Char} {l : List (Option Char)}

/-- An octet that goes on with a character part way through. -/
def Pending.Admits (p : Pending) (b : UInt8) : Prop := p.low ≤ b.toNat ∧ b.toNat ≤ p.high

/-- The bits with those of one more octet. -/
def Pending.bitsWith (p : Pending) (b : UInt8) : Nat := p.bits * 64 + (b.toNat - 0x80)

theorem scalarsFrom_of_last (hadmits : p.Admits b) (hlast : p.owed ≤ 1) (r : List UInt8) :
    scalarsFrom (some p) (b :: r) = some (Char.ofNat (p.bitsWith b)) :: scalarsFrom none r :=
  (if_pos hadmits).trans (if_pos hlast)

theorem scalarsFrom_of_more (hadmits : p.Admits b) (hmore : 1 < p.owed) (r : List UInt8) :
    scalarsFrom (some p) (b :: r) = scalarsFrom (some ⟨p.bitsWith b, p.owed - 1, 0x80, 0xBF⟩) r :=
  (if_pos hadmits).trans (if_neg (Nat.not_le.mpr hmore))

/-- A character part way through is completed by what it admits only. -/
theorem admits_of_scalarsFrom (hread : scalarsFrom (some p) octets = some c :: l) :
    ∃ b r, octets = b :: r ∧ p.Admits b := by
  cases octets with
  | nil => simp [scalarsFrom] at hread
  | cons b r =>
      refine ⟨b, r, rfl, ?_⟩
      by_contra hrefused
      have hended := (if_neg hrefused).symm.trans hread
      split at hended <;> simp at hended

theorem scalarsFrom_of_pending (hstarted : Lead.ofOctet b = .pending p) (r : List UInt8) :
    scalarsFrom none (b :: r) = scalarsFrom (some p) r := by
  rw [scalarsFrom, hstarted]

theorem ofOctet_two (hfirst : 0xC2 ≤ b.toNat ∧ b.toNat < 0xE0) :
    Lead.ofOctet b = .pending ⟨b.toNat - 0xC0, 1, 0x80, 0xBF⟩ := by
  simp only [Lead.ofOctet]
  rw [if_neg (by omega), if_neg (by omega), if_pos (by omega)]

theorem ofOctet_three (hfirst : 0xE0 ≤ b.toNat ∧ b.toNat < 0xF0) :
    Lead.ofOctet b = .pending ⟨b.toNat - 0xE0, 2, if b.toNat = 0xE0 then 0xA0 else 0x80,
      if b.toNat = 0xED then 0x9F else 0xBF⟩ := by
  simp only [Lead.ofOctet]
  rw [if_neg (by omega), if_neg (by omega), if_neg (by omega), if_pos (by omega)]

theorem ofOctet_four (hfirst : 0xF0 ≤ b.toNat ∧ b.toNat < 0xF5) :
    Lead.ofOctet b = .pending ⟨b.toNat - 0xF0, 3, if b.toNat = 0xF0 then 0x90 else 0x80,
      if b.toNat = 0xF4 then 0x8F else 0xBF⟩ := by
  simp only [Lead.ofOctet]
  rw [if_neg (by omega), if_neg (by omega), if_neg (by omega), if_neg (by omega),
    if_pos (by omega)]

theorem ofOctet_invalid (hfirst : (0x80 ≤ b.toNat ∧ b.toNat < 0xC2) ∨ 0xF5 ≤ b.toNat) :
    Lead.ofOctet b = .invalid := by
  simp only [Lead.ofOctet]
  rcases hfirst with hlow | hhigh
  · rw [if_neg (by omega), if_pos (by omega)]
  · rw [if_neg (by omega), if_neg (by omega), if_neg (by omega), if_neg (by omega),
      if_neg (by omega)]

/-- A second octet is bounded by the first one where that is the least or the greatest. -/
theorem admits_second_iff {bits owed a few many least most : Nat} (hleastTail : 0x80 ≤ least)
    (hmostTail : most ≤ 0xBF) :
    Pending.Admits ⟨bits, owed, if a = few then least else 0x80,
        if a = many then most else 0xBF⟩ b ↔
      IsTail b ∧ (a = few → least ≤ b.toNat) ∧ (a = many → b.toNat ≤ most) := by
  simp only [Pending.Admits, IsTail]
  split_ifs <;> omega

/-- Octets of a number are read as its character. -/
theorem CharOctets.scalars_append {n : Nat} (hshape : CharOctets octets n) (r : List UInt8) :
    scalars (octets ++ r) = some (Char.ofNat n) :: scalars r := by
  cases hshape with
  | one hfirst => simp [scalars, scalarsFrom, Lead.ofOctet, hfirst]
  | @two a b hfirst htail =>
      calc
        scalars (a :: b :: r) = _ := scalarsFrom_of_pending (ofOctet_two hfirst) _
        _ = _ := scalarsFrom_of_last (p := ⟨_, 1, 0x80, 0xBF⟩) htail (Nat.le_refl 1) r
  | @three a b c hfirst htail hleast hmost hlast =>
      have hsecond := fun bits owed =>
        (@admits_second_iff b bits owed _ _ _ _ _ (by decide) (by decide)).mpr
          ⟨htail, hleast, hmost⟩
      calc
        scalars (a :: b :: c :: r) = _ := scalarsFrom_of_pending (ofOctet_three hfirst) _
        _ = _ := scalarsFrom_of_more (hsecond _ 2) Nat.one_lt_two _
        _ = _ := scalarsFrom_of_last (p := ⟨_, 1, 0x80, 0xBF⟩) hlast (Nat.le_refl 1) r
  | @four a b c d hfirst htail hleast hmost hthird hlast =>
      have hsecond := fun bits owed =>
        (@admits_second_iff b bits owed _ _ _ _ _ (by decide) (by decide)).mpr
          ⟨htail, hleast, hmost⟩
      calc
        scalars (a :: b :: c :: d :: r) = _ := scalarsFrom_of_pending (ofOctet_four hfirst) _
        _ = _ := scalarsFrom_of_more (hsecond _ 3) (show 1 < 3 by decide) _
        _ = _ := scalarsFrom_of_more (p := ⟨_, 2, 0x80, 0xBF⟩) hthird Nat.one_lt_two _
        _ = _ := scalarsFrom_of_last (p := ⟨_, 1, 0x80, 0xBF⟩) hlast (Nat.le_refl 1) r

/-- A character is read from octets of a number. -/
theorem charOctets_of_scalars (hread : scalars octets = some c :: l) :
    ∃ shape n r, CharOctets shape n ∧ octets = shape ++ r := by
  cases octets with
  | nil => simp [scalars, scalarsFrom] at hread
  | cons a r =>
      rw [scalars] at hread
      by_cases hone : a.toNat < 0x80
      · exact ⟨_, _, r, .one hone, rfl⟩
      by_cases htwo : 0xC2 ≤ a.toNat ∧ a.toNat < 0xE0
      · rw [scalarsFrom_of_pending (ofOctet_two htwo)] at hread
        obtain ⟨b, r, rfl, htail⟩ := admits_of_scalarsFrom hread
        exact ⟨_, _, r, .two htwo htail, rfl⟩
      by_cases hthree : 0xE0 ≤ a.toNat ∧ a.toNat < 0xF0
      · rw [scalarsFrom_of_pending (ofOctet_three hthree)] at hread
        obtain ⟨b, r, rfl, hsecond⟩ := admits_of_scalarsFrom hread
        rw [scalarsFrom_of_more hsecond Nat.one_lt_two] at hread
        obtain ⟨c, r, rfl, hlast⟩ := admits_of_scalarsFrom hread
        obtain ⟨htail, hleast, hmost⟩ := (admits_second_iff (by decide) (by decide)).mp hsecond
        exact ⟨_, _, r, .three hthree htail hleast hmost hlast, rfl⟩
      by_cases hfour : 0xF0 ≤ a.toNat ∧ a.toNat < 0xF5
      · rw [scalarsFrom_of_pending (ofOctet_four hfour)] at hread
        obtain ⟨b, r, rfl, hsecond⟩ := admits_of_scalarsFrom hread
        rw [scalarsFrom_of_more hsecond (show 1 < 3 by decide)] at hread
        obtain ⟨c, r, rfl, hthird⟩ := admits_of_scalarsFrom hread
        rw [scalarsFrom_of_more hthird Nat.one_lt_two] at hread
        obtain ⟨d, r, rfl, hlast⟩ := admits_of_scalarsFrom hread
        obtain ⟨htail, hleast, hmost⟩ := (admits_second_iff (by decide) (by decide)).mp hsecond
        exact ⟨_, _, r, .four hfour htail hleast hmost hthird hlast, rfl⟩
      · rw [scalarsFrom, ofOctet_invalid (by omega)] at hread
        simp at hread

end Steps

section Texts

theorem scalars_encodeChar_append (c : Char) (r : List UInt8) :
    scalars (encodeChar c ++ r) = some c :: scalars r := by
  rw [(charOctets_encodeChar c).scalars_append r, Char.ofNat_toNat]

/-- A character comes from the octets that it is written with. -/
theorem exists_of_scalars {octets : List UInt8} {c : Char} {l : List (Option Char)}
    (hread : scalars octets = some c :: l) :
    ∃ r, octets = encodeChar c ++ r ∧ scalars r = l := by
  obtain ⟨shape, n, r, hofNumber, rfl⟩ := charOctets_of_scalars hread
  rw [hofNumber.scalars_append] at hread
  obtain ⟨hfirst, hrest⟩ := List.cons.inj hread
  obtain rfl := Option.some.inj hfirst
  exact ⟨r, by rw [hofNumber.encodeChar_ofNat], hrest⟩

theorem scalarsFrom_some_ne_nil (p : Pending) (octets : List UInt8) :
    scalarsFrom (some p) octets ≠ [] := by
  induction octets generalizing p with
  | nil => simp [scalarsFrom]
  | cons b r ih =>
      rw [scalarsFrom]
      split_ifs
      · simp
      · exact ih _
      · split <;> simp

/-- Nothing is read from no octets only. -/
theorem scalars_eq_nil_iff {octets : List UInt8} : scalars octets = [] ↔ octets = [] := by
  cases octets with
  | nil => simp [scalars, scalarsFrom]
  | cons b r =>
      have hsomeRead : scalars (b :: r) ≠ [] := by
        rw [scalars, scalarsFrom]
        split
        · simp
        · exact scalarsFrom_some_ne_nil _ _
        · simp
      simp only [hsomeRead, reduceCtorEq]

theorem scalars_eq_map_some_iff {octets : List UInt8} {cs : List Char} :
    scalars octets = cs.map some ↔ encode cs = octets := by
  induction cs generalizing octets with
  | nil => exact scalars_eq_nil_iff.trans eq_comm
  | cons c cs ih =>
      constructor
      · intro hread
        obtain ⟨r, rfl, hrest⟩ := exists_of_scalars hread
        rw [← ih.mp hrest, encode, List.flatMap_cons]
        rfl
      · rintro rfl
        rw [encode, List.flatMap_cons, scalars_encodeChar_append]
        exact congrArg (some c :: ·) (ih.mpr rfl)

/-- All options are filled when the list of their contents is there. -/
theorem mapM_id_eq_some_iff {α : Type} {l : List (Option α)} {l' : List α} :
    l.mapM id = some l' ↔ l = l'.map some := by
  induction l generalizing l' with
  | nil => cases l' <;> simp
  | cons a l ih =>
      cases a with
      | none => cases l' <;> simp
      | some a =>
          cases l' with
          | nil => simp [Option.bind_eq_some_iff]
          | cons b l' => simp [Option.bind_eq_some_iff, ih, and_comm]

/-- Octets decode to the characters of a text exactly when they are the octets of that text. -/
theorem decode?_eq_some_iff {line : List UInt8} {text : String} :
    decode? line = some text.toList ↔ octetsOf text = line := by
  rw [decode?, mapM_id_eq_some_iff, scalars_eq_map_some_iff, octetsOf_eq_encode]

theorem isSome_decode?_iff {line : List UInt8} :
    (decode? line).isSome ↔ ∃ text, octetsOf text = line := by
  rw [Option.isSome_iff_exists]
  constructor
  · rintro ⟨cs, hread⟩
    exact ⟨String.ofList cs, decode?_eq_some_iff.mp (by rw [hread, String.toList_ofList])⟩
  · rintro ⟨text, hwritten⟩
    exact ⟨text.toList, decode?_eq_some_iff.mpr hwritten⟩

end Texts

end ManifestForm.Utf8
