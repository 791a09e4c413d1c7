import ManifestForm.Json.Parser
import ManifestForm.Proofs.Number.Numeral
import Mathlib.Data.List.Basic

/-!
# Texts that spell values

A text without blanks spells a value by the grammar of JSON. The compact text of
a value spells it, and no text that spells a value holds a control character.
-/

namespace ManifestForm

namespace Json

section Grammar

/-- The characters of a string, and what stands for them between its quotes. -/
inductive SpellsChars : List Char → List Char → Prop
  | nil : SpellsChars [] []
  | plain {c : Char} {text cs : List Char} (hnoControl : 32 ≤ c.toNat) (hnoQuote : c ≠ '"')
      (hnoBackslash : c ≠ '\\') (hrest : SpellsChars text cs) : SpellsChars (c :: text) (c :: cs)
  | escaped {letter c : Char} {text cs : List Char}
      (hstands : Parser.simpleEscape? letter = some c) (hrest : SpellsChars text cs) :
      SpellsChars ('\\' :: letter :: text) (c :: cs)
  | numbered {p q r s : Char} {n : Nat} {text cs : List Char}
      (hnumber : Parser.hex4? p q r s = some n) (hvalid : n.isValidChar)
      (hrest : SpellsChars text cs) :
      SpellsChars ('\\' :: 'u' :: p :: q :: r :: s :: text) (Char.ofNat n :: cs)

/-- A text spells a string: its characters between two quotes. -/
inductive SpellsString : List Char → String → Prop
  | intro {text : List Char} {s : String} (hchars : SpellsChars text s.toList) :
      SpellsString ('"' :: (text ++ ['"'])) s

/-- A value behind a key, with the texts of both. -/
structure Member where
  keyText : List Char
  key : String
  valueText : List Char
  value : Json

def Member.text (m : Member) : List Char := m.keyText ++ ':' :: m.valueText

def Member.entry (m : Member) : String × Json := (m.key, m.value)

theorem Member.length_valueText_le (m : Member) : m.valueText.length ≤ m.text.length := by
  rw [Member.text, List.length_append, List.length_cons]
  omega

/-- A text spells a value. Numbers are spelled by their own texts, as long as these are numerals. -/
inductive Spells : List Char → Json → Prop
  | null : Spells ['n', 'u', 'l', 'l'] .null
  | true : Spells ['t', 'r', 'u', 'e'] (.bool Bool.true)
  | false : Spells ['f', 'a', 'l', 's', 'e'] (.bool Bool.false)
  | num {n : Number} (hnumeral : IsNumeral n.text) : Spells n.text (.num n)
  | str {text : List Char} {s : String} (hstring : SpellsString text s) : Spells text (.str s)
  | arr (items : List (List Char × Json)) (heach : ∀ item ∈ items, Spells item.1 item.2) :
      Spells ('[' :: ([','].intercalate (items.map Prod.fst) ++ [']'])) (.arr (items.map Prod.snd))
  | obj (members : List Member) (hkeys : ∀ m ∈ members, SpellsString m.keyText m.key)
      (hvalues : ∀ m ∈ members, Spells m.valueText m.value) :
      Spells ('{' :: ([','].intercalate (members.map Member.text) ++ ['}']))
        (.obj (members.map Member.entry))

end Grammar

section CompactTexts

/-- The number of a control character fits two digits behind two zeros. -/
theorem hex4?_of_control : ∀ n < 32,
    Parser.hex4? '0' '0' (hexDigit (n / 16)) (hexDigit n) = some n := by decide

theorem isValidChar_of_control : ∀ n < 32, n.isValidChar := by decide

/-- A character is escaped, numbered or written as it is. -/
theorem spellsChars_escapeChar_append (c : Char) {text cs : List Char}
    (hrest : SpellsChars text cs) : SpellsChars (escapeChar c ++ text) (c :: cs) := by
  unfold escapeChar
  split_ifs with hquote hbackslash hfeed hreturn htab hback hform hcontrol
  · subst hquote
    exact .escaped rfl hrest
  · subst hbackslash
    exact .escaped rfl hrest
  · subst hfeed
    exact .escaped rfl hrest
  · subst hreturn
    exact .escaped rfl hrest
  · subst htab
    exact .escaped rfl hrest
  · obtain rfl : c = '\x08' := Char.toNat_inj.mp hback
    exact .escaped rfl hrest
  · obtain rfl : c = '\x0c' := Char.toNat_inj.mp hform
    exact .escaped rfl hrest
  · have hwritten := SpellsChars.numbered (hex4?_of_control c.toNat hcontrol)
      (isValidChar_of_control c.toNat hcontrol) hrest
    rwa [Char.ofNat_toNat] at hwritten
  · exact .plain (Nat.le_of_not_lt hcontrol) hquote hbackslash hrest

/-- A string is written so that it is spelled. -/
theorem spellsString_quoted (s : String) : SpellsString (quoted s) s := by
  refine .intro ?_
  induction s.toList with
  | nil => exact .nil
  | cons c cs ih => exact spellsChars_escapeChar_append c ih

/-- All texts but the first have a separator before them. -/
theorem intercalate_cons_eq_flatMap {α : Type} (sep text : List α) (texts : List (List α)) :
    sep.intercalate (text :: texts) = text ++ texts.flatMap (sep ++ ·) := by
  induction texts generalizing text with
  | nil => simp
  | cons next texts ih =>
      rw [List.intercalate_cons_cons, ih, List.flatMap_cons, List.append_assoc, List.append_assoc]

theorem renderItems_eq (items : List Json) :
    render.renderItems items = (items.map render).flatMap ([','] ++ ·) ++ [']'] := by
  induction items with
  | nil => rfl
  | cons item items ih => simp [render.renderItems, ih]

/-- The texts of the items between brackets, with commas between them. -/
theorem render_arr (items : List Json) :
    render (.arr items) = '[' :: ([','].intercalate (items.map render) ++ [']']) := by
  cases items with
  | nil => rfl
  | cons item items =>
      rw [render, renderItems_eq, List.map_cons, intercalate_cons_eq_flatMap, List.append_assoc]

/-- An entry with the texts that are written for it. -/
def memberOf (entry : String × Json) : Member :=
  ⟨quoted entry.1, entry.1, render entry.2, entry.2⟩

theorem renderEntries_eq (entries : Object) :
    render.renderEntries entries =
      (entries.map fun e => (memberOf e).text).flatMap ([','] ++ ·) ++ ['}'] := by
  induction entries with
  | nil => rfl
  | cons entry entries ih => simp [render.renderEntries, ih, memberOf, Member.text]

/-- The texts of the members between braces, with commas between them. -/
theorem render_obj (entries : Object) :
    render (.obj entries) =
      '{' :: ([','].intercalate (entries.map fun e => (memberOf e).text) ++ ['}']) := by
  cases entries with
  | nil => rfl
  | cons entry entries =>
      rw [render, renderEntries_eq, List.map_cons, intercalate_cons_eq_flatMap]
      simp [memberOf, Member.text]

/-- A property holds of a value if it holds of a collection whenever it holds of all its items or
the values of its entries. -/
@[elab_as_elim]
theorem inductionOn {motive : Json → Prop} (null : motive .null)
    (bool : ∀ value, motive (.bool value)) (num : ∀ n, motive (.num n))
    (str : ∀ s, motive (.str s)) (arr : ∀ items, (∀ v ∈ items, motive v) → motive (.arr items))
    (obj : ∀ entries : Object, (∀ e ∈ entries, motive e.2) → motive (.obj entries)) :
    (v : Json) → motive v
  | .null => null
  | .bool value => bool value
  | .num n => num n
  | .str s => str s
  | .arr items => arr items fun v _ => inductionOn null bool num str arr obj v
  | .obj entries => obj entries fun e he =>
      have hsize := List.sizeOf_lt_of_mem he
      have hpair : sizeOf e = 1 + sizeOf e.1 + sizeOf e.2 := by cases e; rfl
      inductionOn null bool num str arr obj e.2

/-- The compact text of a value spells it. -/
theorem spells_render (v : Json) : Spells v.render v := by
  induction v using inductionOn with
  | null => exact .null
  | bool value =>
      cases value with
      | false => exact .false
      | true => exact .true
  | num n => exact .num n.isNumeral_text
  | str s => exact .str (spellsString_quoted s)
  | arr items ih =>
      have hspelled := Spells.arr (items.map fun v => (v.render, v)) (by simpa using ih)
      rw [render_arr]
      simpa [Function.comp_def] using hspelled
  | obj entries ih =>
      have hspelled := Spells.obj (entries.map memberOf)
        (List.forall_mem_map.mpr fun e _ => spellsString_quoted e.1) (List.forall_mem_map.mpr ih)
      rw [render_obj]
      simpa [Function.comp_def, memberOf, Member.entry] using hspelled

end CompactTexts

section ControlCharacters

/-- No control characters. -/
def IsPrintable (text : List Char) : Prop := ∀ c ∈ text, 32 ≤ c.toNat

theorem isPrintable_append {text text' : List Char} :
    IsPrintable (text ++ text') ↔ IsPrintable text ∧ IsPrintable text' :=
  List.forall_mem_append

theorem isPrintable_cons {c : Char} {text : List Char} :
    IsPrintable (c :: text) ↔ 32 ≤ c.toNat ∧ IsPrintable text :=
  List.forall_mem_cons

/-- Printable texts with a printable separator between them are printable. -/
theorem IsPrintable.intercalate {sep : List Char} {texts : List (List Char)}
    (hsep : IsPrintable sep) (heach : ∀ text ∈ texts, IsPrintable text) :
    IsPrintable (sep.intercalate texts) := by
  cases texts with
  | nil => simp [IsPrintable]
  | cons text texts =>
      obtain ⟨hfirst, hrest⟩ := List.forall_mem_cons.mp heach
      rw [intercalate_cons_eq_flatMap, isPrintable_append]
      refine ⟨hfirst, ?_⟩
      intro c hmem
      obtain ⟨other, hother, hmem⟩ := List.mem_flatMap.mp hmem
      exact isPrintable_append.mpr ⟨hsep, hrest other hother⟩ c hmem

theorem le_toNat_of_hexValue? {c : Char} {n : Nat} (hvalue : Parser.hexValue? c = some n) :
    32 ≤ c.toNat := by
  unfold Parser.hexValue? at hvalue
  have hleast : '0' ≤ c := by
    split_ifs at hvalue with hdigit hlower hupper
    · exact hdigit.1
    · exact Char.le_trans (by decide) hlower.1
    · exact Char.le_trans (by decide) hupper.1
  have hbound : '0'.toNat ≤ c.toNat := hleast
  exact Nat.le_trans (by decide) hbound

/-- Hexadecimal digits are no control characters. -/
theorem isPrintable_of_hex4? {p q r s : Char} {n : Nat}
    (hnumber : Parser.hex4? p q r s = some n) : IsPrintable [p, q, r, s] := by
  simp only [Parser.hex4?, bind, Option.bind_eq_some_iff] at hnumber
  obtain ⟨_, hfirst, _, hsecond, _, hthird, _, hlast, -⟩ := hnumber
  simp only [isPrintable_cons]
  exact ⟨le_toNat_of_hexValue? hfirst, le_toNat_of_hexValue? hsecond, le_toNat_of_hexValue? hthird,
    le_toNat_of_hexValue? hlast, by simp [IsPrintable]⟩

theorem le_toNat_of_simpleEscape? {letter c : Char}
    (hstands : Parser.simpleEscape? letter = some c) : 32 ≤ letter.toNat := by
  unfold Parser.simpleEscape? at hstands
  split at hstands <;> first | decide | cases hstands

theorem SpellsChars.isPrintable {text cs : List Char} (hspelled : SpellsChars text cs) :
    IsPrintable text := by
  induction hspelled with
  | nil => simp [IsPrintable]
  | plain hnoControl hnoQuote hnoBackslash hrest ih => exact isPrintable_cons.mpr ⟨hnoControl, ih⟩
  | escaped hstands hrest ih =>
      have hletter := le_toNat_of_simpleEscape? hstands
      exact isPrintable_cons.mpr ⟨by decide, isPrintable_cons.mpr ⟨hletter, ih⟩⟩
  | @numbered p q r s _ text _ hnumber hvalid hrest ih =>
      have hdigits : IsPrintable ([p, q, r, s] ++ text) :=
        isPrintable_append.mpr ⟨isPrintable_of_hex4? hnumber, ih⟩
      exact isPrintable_cons.mpr ⟨by decide, isPrintable_cons.mpr ⟨by decide, hdigits⟩⟩

theorem SpellsString.isPrintable {text : List Char} {s : String} (hspelled : SpellsString text s) :
    IsPrintable text := by
  cases hspelled with
  | intro hchars =>
      refine isPrintable_cons.mpr ⟨by decide, isPrintable_append.mpr ⟨hchars.isPrintable, ?_⟩⟩
      simp [IsPrintable]

theorem isPrintable_of_isDigits {ds : List Char} (hdigits : Numeral.IsDigits ds) :
    IsPrintable ds := by
  intro c hmem
  have hdigit := hdigits.2 c hmem
  simp only [Char.isDigit, Bool.and_eq_true, decide_eq_true_eq] at hdigit
  have hbound : 48 ≤ c.toNat := hdigit.1
  omega

theorem isPrintable_of_isUnsigned {text : List Char} (hunsigned : Numeral.IsUnsigned text) :
    IsPrintable text := by
  obtain ⟨hwhole, hfraction, hexponent⟩ := hunsigned
  simp only [isPrintable_append]
  refine ⟨⟨isPrintable_of_isDigits hwhole.1, ?_⟩, ?_⟩
  · rcases hfraction with rfl | ⟨ds, hdigits, rfl⟩
    · simp [IsPrintable]
    · exact isPrintable_cons.mpr ⟨by decide, isPrintable_of_isDigits hdigits⟩
  · rcases hexponent with rfl | ⟨letter, sign, ds, hletter, hsign, hdigits, rfl⟩
    · simp [IsPrintable]
    · rw [isPrintable_cons, isPrintable_append]
      refine ⟨?_, ?_, isPrintable_of_isDigits hdigits⟩
      · rcases hletter with rfl | rfl <;> decide
      · rcases hsign with rfl | rfl | rfl <;> simp [IsPrintable]

/-- A numeral has digits, signs, a point and a letter at most. -/
theorem isPrintable_of_isNumeral {text : List Char} (hnumeral : IsNumeral text) :
    IsPrintable text := by
  cases hnumeral with
  | unsigned hunsigned => exact isPrintable_of_isUnsigned hunsigned
  | negative hunsigned =>
      exact isPrintable_cons.mpr ⟨by decide, isPrintable_of_isUnsigned hunsigned⟩

/-- Brackets around texts with commas between them. -/
theorem isPrintable_between {first last : Char} {texts : List (List Char)}
    (hopens : 32 ≤ first.toNat) (hcloses : 32 ≤ last.toNat)
    (heach : ∀ text ∈ texts, IsPrintable text) :
    IsPrintable (first :: ([','].intercalate texts ++ [last])) := by
  have hcomma : IsPrintable [','] := by simp [IsPrintable]
  have hclosed : IsPrintable [last] := by simpa [IsPrintable] using hcloses
  exact isPrintable_cons.mpr ⟨hopens, isPrintable_append.mpr ⟨hcomma.intercalate heach, hclosed⟩⟩

/-- A text that spells a value holds no control characters. -/
theorem Spells.isPrintable {text : List Char} {v : Json} (hspelled : Spells text v) :
    IsPrintable text := by
  induction hspelled with
  | null => simp [IsPrintable]
  | true => simp [IsPrintable]
  | false => simp [IsPrintable]
  | num hnumeral => exact isPrintable_of_isNumeral hnumeral
  | str hstring => exact hstring.isPrintable
  | arr items heach ih =>
      exact isPrintable_between (by decide) (by decide) (List.forall_mem_map.mpr ih)
  | obj members hkeys hvalues ih =>
      apply isPrintable_between (by decide) (by decide)
      rw [List.forall_mem_map]
      intro m hmem
      exact isPrintable_append.mpr
        ⟨(hkeys m hmem).isPrintable, isPrintable_cons.mpr ⟨by decide, ih m hmem⟩⟩

end ControlCharacters

end Json

end ManifestForm
