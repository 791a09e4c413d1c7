import ManifestForm.Proofs.PathMap.Nearest
import ManifestForm.Proofs.PathMap.Places
import ManifestForm.Proofs.Yaml.Positions

/-!
# Lines of the entries of a text

A path map keeps only locations that it took notice of, and those of a text are its marks. The line
of a mark in the text is the line that holds the byte at its offset, so a query for this offset
considers the entry. The scanner moves the mark of the end when the text ends within a line. What
is left out there is recorded one line below the byte at its offset, and the query passes it over.
-/

namespace ManifestForm.PathMap

section Holds

variable {Q : Location → Prop}

section Locations

/-- A location that is lowered is the old one or the new one. -/
theorem Entries.forall_mem_lower {es : Entries} {l : Location} (hes : ∀ e ∈ es, Q e.2) (hl : Q l)
    (p : Path) : ∀ e ∈ es.lower p l, Q e.2 := by
  induction es with
  | nil => exact List.forall_mem_singleton.mpr hl
  | cons e es ih =>
      obtain ⟨he, hes⟩ := List.forall_mem_cons.mp hes
      rw [Entries.lower]
      split
      · refine List.forall_mem_cons.mpr ⟨?_, hes⟩
        dsimp only
        split
        · exact hl
        · exact he
      · exact List.forall_mem_cons.mpr ⟨he, ih hes⟩

/-- A location that is put in replaces the old one. -/
theorem Entries.forall_mem_put {es : Entries} {l : Location} (hes : ∀ e ∈ es, Q e.2) (hl : Q l)
    (p : Path) : ∀ e ∈ es.put p l, Q e.2 := by
  induction es with
  | nil => exact List.forall_mem_singleton.mpr hl
  | cons e es ih =>
      obtain ⟨he, hes⟩ := List.forall_mem_cons.mp hes
      rw [Entries.put]
      split
      · exact List.forall_mem_cons.mpr ⟨hl, hes⟩
      · exact List.forall_mem_cons.mpr ⟨he, ih hes⟩

/-- All locations in the fragment have the property. -/
inductive Fragment.All (Q : Location → Prop) : Fragment → Prop where
  | mk (p : Path) {l : Location} {children : List Fragment} (hl : Q l)
      (hchildren : ∀ f ∈ children, All Q f) : All Q (.mk p l children)

/-- Another path leaves the locations of a fragment alone. -/
theorem Fragment.All.withPath {f : Fragment} (h : f.All Q) (p : Path) : (f.withPath p).All Q := by
  obtain ⟨q, hl, hchildren⟩ := h
  exact .mk p hl hchildren

mutual
/-- What a fragment brings into the entries are its own locations. -/
theorem Entries.forall_mem_resolve {es : Entries} (hes : ∀ e ∈ es, Q e.2) (p : Path) :
    (f : Fragment) → f.All Q → ∀ e ∈ es.resolve p f, Q e.2
  | .mk q l children, .mk _ hl hchildren => by
      rw [Entries.resolve]
      exact Entries.forall_mem_resolveAll (Entries.forall_mem_lower hes hl (p.drop 1)) p children
        hchildren

theorem Entries.forall_mem_resolveAll {es : Entries} (hes : ∀ e ∈ es, Q e.2) (p : Path) :
    (fs : List Fragment) → (∀ f ∈ fs, f.All Q) → ∀ e ∈ resolve.resolveAll p es fs, Q e.2
  | [], _ => hes
  | .mk q l cs :: rest, hfs => by
      obtain ⟨hf, hrest⟩ := List.forall_mem_cons.mp hfs
      rw [resolve.resolveAll]
      exact Entries.forall_mem_resolveAll
        (Entries.forall_mem_resolve hes (p ++ q) (.mk q l cs) hf) p rest hrest
end

/-- All locations that the map keeps have the property: those of its entries, of open nodes, and
of closed ones that wait. -/
structure Holds (Q : Location → Prop) (m : PathMap) : Prop where
  entries : ∀ e ∈ m.entries, Q e.2
  opened : ∀ l ∈ m.opened, Q l
  fragments : ∀ f ∈ m.fragments, f.All Q

variable {m : PathMap} {l : Location}

theorem holds_forText (text : String) : (forText text).Holds Q :=
  ⟨List.forall_mem_nil _, List.forall_mem_nil _, List.forall_mem_nil _⟩

theorem Holds.openNode (h : m.Holds Q) (hl : Q l) : (m.openNode l).Holds Q where
  entries := by
    rw [PathMap.openNode]
    dsimp only
    split
    · exact h.entries
    · exact Entries.forall_mem_put h.entries hl []
  opened := List.forall_mem_cons.mpr ⟨hl, h.opened⟩
  fragments := h.fragments

theorem Holds.closeScalar (h : m.Holds Q) (text : String) (hl : Q l) :
    (m.closeScalar text l).Holds Q := by
  rw [PathMap.closeScalar]
  dsimp only
  split
  · exact ⟨Entries.forall_mem_put h.entries hl [text], h.opened, h.fragments⟩
  · refine ⟨h.entries, h.opened, List.forall_mem_append.mpr ⟨h.fragments, ?_⟩⟩
    exact List.forall_mem_singleton.mpr (.mk _ hl (List.forall_mem_nil _))

/-- Taking fragments apart makes none. -/
theorem Holds.takeBelow (h : m.Holds Q) :
    (∀ f ∈ m.takeBelow.1, f.All Q) ∧ ∀ f ∈ m.takeBelow.2, f.All Q := by
  rw [PathMap.takeBelow, List.partition_eq_filter_filter]
  constructor
  · intro f hf
    exact h.fragments f (List.mem_of_mem_filter (List.mem_reverse.mp hf))
  · intro f hf
    exact h.fragments f (List.mem_of_mem_filter hf)

/-- A collection that closes leaves its own location and those of its parts. -/
theorem Holds.closeWith (h : m.Holds Q) {parts : List (Path × Path × Fragment)}
    {others : List Fragment} (hparts : ∀ x ∈ parts, x.2.2.All Q) (hothers : ∀ f ∈ others, f.All Q)
    (hl : Q l) : (m.closeWith parts others l).Holds Q := by
  rw [PathMap.closeWith]
  split
  · refine ⟨?_, h.opened, hothers⟩
    have hes := h.entries
    dsimp only
    generalize m.entries = es at hes ⊢
    induction parts generalizing es with
    | nil => exact hes
    | cons x parts ih =>
        obtain ⟨hx, hparts⟩ := List.forall_mem_cons.mp hparts
        exact ih hparts _ (Entries.forall_mem_resolve hes x.1 x.2.2 hx)
  · refine ⟨h.entries, h.opened, List.forall_mem_append.mpr ⟨hothers, ?_⟩⟩
    refine List.forall_mem_singleton.mpr (.mk _ hl ?_)
    intro f hf
    obtain ⟨x, hx, rfl⟩ := List.mem_map.mp hf
    exact (hparts x hx).withPath x.2.1

theorem Holds.closeMapping (h : m.Holds Q) (hl : Q l) : (m.closeMapping l).Holds Q := by
  obtain ⟨hbelow, hothers⟩ := h.takeBelow
  apply h.closeWith _ hothers hl
  intro x hx
  obtain ⟨f, hf, rfl⟩ := List.mem_map.mp hx
  exact hbelow f (mem_of_mem_dropValues hf)

theorem Holds.closeSequence (h : m.Holds Q) (hl : Q l) : (m.closeSequence l).Holds Q := by
  obtain ⟨hbelow, hothers⟩ := h.takeBelow
  apply h.closeWith _ hothers hl
  intro x hx
  obtain ⟨⟨name, f⟩, hf, rfl⟩ := List.mem_map.mp hx
  obtain ⟨i, hi, -⟩ := mem_numbered_iff.mp hf
  have hitem := List.mem_reverse.mp (List.mem_of_getElem? hi)
  exact hbelow f (mem_of_mem_distinctOffsets hitem)

/-- A notice brings in its own location only. -/
theorem Holds.record (h : m.Holds Q) {n : Notice} (hn : Q n.location) : (m.record n).Holds Q := by
  have houter : { m with opened := m.opened.drop 1 }.Holds Q :=
    ⟨h.entries, fun l hl => h.opened l (List.mem_of_mem_drop hl), h.fragments⟩
  have hopened : Q (m.opened.headD n.location) := by
    cases hm : m.opened with
    | nil => exact hn
    | cons l ls => exact h.opened l (hm ▸ List.mem_cons_self)
  obtain ⟨phase, kind, location⟩ := n
  cases phase with
  | opening => exact h.openNode hn
  | closing =>
      cases kind with
      | scalar text => exact houter.closeScalar text hn
      | mapping => exact houter.closeMapping hopened
      | sequence => exact houter.closeSequence hopened

theorem Holds.recordAll (h : m.Holds Q) {ns : List Notice} (hns : ∀ n ∈ ns, Q n.location) :
    (m.recordAll ns).Holds Q := by
  induction ns generalizing m with
  | nil => exact h
  | cons n ns ih =>
      obtain ⟨hn, hns⟩ := List.forall_mem_cons.mp hns
      exact ih (h.record hn) hns

/-- Every notice of an event lies where the event does. -/
theorem forall_mem_notices (hl : Q l) (e : Yaml.Event) : ∀ n ∈ notices l e, Q n.location := by
  have hscalar (text : String) : ∀ n ∈ scalarNotices text l, Q n.location := by
    rw [scalarNotices, List.forall_mem_cons, List.forall_mem_singleton]
    exact ⟨hl, hl⟩
  cases e with
  | documentStart => exact List.forall_mem_nil _
  | documentEnd => exact List.forall_mem_nil _
  | scalar text style tag anchor => exact hscalar text
  | «alias» anchor => exact hscalar "*"
  | sequenceStart anchor => exact List.forall_mem_singleton.mpr hl
  | sequenceEnd => exact List.forall_mem_singleton.mpr hl
  | mappingStart anchor => exact List.forall_mem_singleton.mpr hl
  | mappingEnd => exact List.forall_mem_singleton.mpr hl

/-- The notices of a node are at the positions of its tree. -/
theorem forall_mem_nodeNotices {n : Yaml.Node Location} (h : n.AllPos Q) :
    ∀ notice ∈ nodeNotices n, Q notice.location := by
  intro notice hnotice
  obtain ⟨⟨e, l⟩, he, hnotice⟩ := List.mem_flatMap.mp hnotice
  exact forall_mem_notices (h (e, l) he) e notice hnotice

end Locations

end Holds

section MarkLines

/-- Line feeds are counted alike on characters and on their octets. -/
theorem count_lineFeed_flatMap (cs : List Char) :
    (cs.flatMap String.utf8EncodeChar).count Text.lineFeed = cs.count '\n' := by
  induction cs with
  | nil => rfl
  | cons c cs ih =>
      rw [List.flatMap_cons, List.count_append, ih]
      by_cases h : c = '\n'
      · subst h
        have hbytes : (String.utf8EncodeChar '\n').count Text.lineFeed = 1 := by decide
        rw [hbytes, List.count_cons_self, Nat.add_comm]
      · have hbytes : (String.utf8EncodeChar c).count Text.lineFeed = 0 :=
          List.count_eq_zero.mpr fun hmem => h (Utf8.lineFeed_mem_utf8EncodeChar_iff.mp hmem)
        rw [hbytes, List.count_cons_of_ne h, Nat.zero_add]

theorem byteOffset_append (before after : List Char) :
    byteOffset (before ++ after) before.length =
      (before.flatMap String.utf8EncodeChar).length := by
  induction before with
  | nil => simp [byteOffset]
  | cons c cs ih =>
      rw [List.cons_append, List.length_cons, byteOffset, ih, List.flatMap_cons,
        List.length_append, String.length_utf8EncodeChar]

/-- The line feeds below the offset of a character are those among the characters before it. -/
theorem lineFeedsBelow_byteOffset {text : String} {before after : List Char}
    (h : text.toList = before ++ after) :
    lineFeedsBelow text (byteOffset text.toList before.length) = before.count '\n' := by
  rw [lineFeedsBelow, toList_data_toByteArray, h, byteOffset_append, List.flatMap_append,
    List.take_left, count_lineFeed_flatMap]

/-- The text ends at the offset, and the end is not the start of a line. A NUL ends the text. -/
def EndsWithinLine (text : String) (offset : Nat) : Prop :=
  ∃ before after, text.toList = before ++ after ∧ after.headD Yaml.nul = Yaml.nul ∧
    (∃ c ∈ before.getLast?, c ≠ '\n') ∧ offset = byteOffset text.toList before.length

/-- The line of a location is the one that holds the byte at its offset, or, where the text ends
within a line, the location is the start of the line behind it. -/
def IsOnLine (text : String) (l : Location) : Prop :=
  l.line = lineFeedsBelow text l.offset ∨
    (EndsWithinLine text l.offset ∧ l.line = lineFeedsBelow text l.offset + 1 ∧ l.column = 0)

/-- A mark within the text is located on its line. -/
theorem isOnLine_locate {text : String} {m : Yaml.Mark} (h : m.IsPlaced text.toList) :
    IsOnLine text (locate text.toList m) := by
  have hindex (before : List Char) : (Yaml.Mark.start.afterAll before).index = before.length := by
    rw [Yaml.Mark.index_afterAll]
    exact Nat.zero_add _
  rcases h with ⟨before, after, htext, rfl⟩ | ⟨before, after, htext, hend, hcolumn, rfl⟩
  · left
    rw [locate, hindex]
    dsimp only
    rw [lineFeedsBelow_byteOffset htext, Yaml.Mark.line_afterAll]
    exact Nat.add_sub_cancel_left 1 _
  · right
    rw [locate, hindex]
    refine ⟨?_, ?_, rfl⟩
    · refine ⟨before, after, htext, hend, ?_, rfl⟩
      have hbreak := mt (Yaml.Mark.column_afterAll_eq_zero_iff before).mpr hcolumn
      push Not at hbreak
      exact hbreak
    · dsimp only
      rw [lineFeedsBelow_byteOffset htext, Yaml.Mark.line_afterAll]
      exact Nat.add_comm _ _

/-- The map of a text has taken notice of nothing but what lies on its lines. -/
theorem exists_notices_of_ofText {text : String} {m : PathMap} (h : ofText text = .ok m) :
    ∃ ns, m = (forText text).recordAll ns ∧ ∀ n ∈ ns, IsOnLine text n.location := by
  rw [ofText] at h
  cases hfirst : (Yaml.Documents.ofText text).first? with
  | error fault =>
      rw [hfirst] at h
      cases h
  | ok first =>
      rw [hfirst] at h
      obtain rfl := Except.ok.inj h
      cases first with
      | none => exact ⟨[], rfl, List.forall_mem_nil _⟩
      | some d =>
          have hd := Yaml.Documents.mem_complete_of_first? hfirst
          have hplaced := Yaml.Documents.allPos_ofText hd
          have hlocated := hplaced.root.mapPos fun _ hmark => isOnLine_locate hmark
          exact ⟨_, rfl, forall_mem_nodeNotices hlocated⟩

end MarkLines

section Queries

/-- Every entry of a text is recorded on the line that holds the byte at its offset, and a query for
the offset is answered with an entry of that line, unless the text ends there within a line. Then
the entry may also be recorded at the start of the next line, and no query for its offset gets
there. -/
theorem pathAtOffset_considers_entry {text : String} {m : PathMap} (h : ofText text = .ok m)
    {e : Path × Location} (he : e ∈ m.entries) :
    (e.2.line = m.lineOf e.2.offset ∧
      ∃ f ∈ m.entries, m.pathAtOffset e.2.offset = some f.1 ∧ f.2.line = e.2.line) ∨
    (EndsWithinLine text e.2.offset ∧ e.2.line = m.lineOf e.2.offset + 1 ∧ e.2.column = 0 ∧
      ∀ p, m.pathAtOffset e.2.offset = some p → ∃ l, (p, l) ∈ m.entries ∧ l.line < e.2.line) := by
  obtain ⟨ns, hm, hns⟩ := exists_notices_of_ofText h
  have hstarts : m.lineStarts = (forText text).lineStarts := by
    rw [hm, recordAll_forText]
    rfl
  have hlines : ∀ e ∈ m.entries, IsOnLine text e.2 := by
    rw [hm]
    exact ((holds_forText text).recordAll hns).entries
  have hline := lineOf_eq_lineFeedsBelow hstarts e.2.offset
  rcases hlines e he with hon | ⟨hend, hbelow, hcolumn⟩
  · left
    rw [← hline] at hon
    refine ⟨hon, ?_⟩
    cases hpath : m.pathAtOffset e.2.offset with
    | none =>
        have hbehind := pathAtLine_eq_none_iff.mp hpath e he
        exact absurd hon (Nat.ne_of_gt hbehind)
    | some p =>
        obtain ⟨l, hnearest⟩ := pathAtLine_eq_some_iff.mp hpath
        have hle : l.line ≤ e.2.line := hon ▸ hnearest.line_le
        have hge : e.2.line ≤ l.line := hnearest.le_line he (Nat.le_of_eq hon)
        exact ⟨(p, l), hnearest.mem, rfl, Nat.le_antisymm hle hge⟩
  · right
    rw [← hline] at hbelow
    refine ⟨hend, hbelow, hcolumn, ?_⟩
    intro p hpath
    obtain ⟨l, hnearest⟩ := pathAtLine_eq_some_iff.mp hpath
    refine ⟨l, hnearest.mem, ?_⟩
    rw [hbelow]
    exact Nat.lt_succ_of_le hnearest.line_le

theorem stream_documentMark : Yaml.Token.stream "---" =
    ⟨[⟨⟨⟨0, 1, 0⟩, .streamStart⟩, ⟨0, 1, 0⟩⟩, ⟨⟨⟨0, 1, 0⟩, .documentStart⟩, ⟨3, 1, 3⟩⟩,
      ⟨⟨⟨3, 2, 0⟩, .streamEnd⟩, ⟨3, 2, 0⟩⟩], none⟩ := by
  have htext : "---".toList = ['-', '-', '-'] := rfl
  rw [Yaml.Token.stream, Yaml.Scanner.ofText, Yaml.Cursor.ofText, htext]
  rfl

theorem ofText_documentMark :
    ofText "---" = .ok ((forText "---").recordAll (scalarNotices "~" ⟨1, 0, 3⟩)) := by
  have hfirst : (Yaml.Documents.ofText "---").first? =
      .ok (some ⟨⟨0, 1, 0⟩, .absent ⟨3, 2, 0⟩, ⟨3, 2, 0⟩⟩) := by
    rw [Yaml.Documents.ofText, stream_documentMark]
    rfl
  rw [ofText, hfirst]
  rfl

/-- The one node of the text is left out behind the mark of the document. It is recorded on a line
that the text does not have, and the query for its offset finds nothing. -/
theorem endsWithinLine_documentMark :
    ∃ m, ofText "---" = .ok m ∧ m.entries = [([], ⟨1, 0, 3⟩), (["~"], ⟨1, 0, 3⟩)] ∧
      m.lineOf 3 = 0 ∧ m.pathAtOffset 3 = none ∧ EndsWithinLine "---" 3 := by
  refine ⟨_, ofText_documentMark, rfl, rfl, rfl, ?_⟩
  rcases pathAtOffset_considers_entry ofText_documentMark List.mem_cons_self with
    ⟨hline, -⟩ | ⟨hend, -⟩
  · cases hline
  · exact hend

end Queries

end ManifestForm.PathMap
