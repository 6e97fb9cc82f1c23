import Blueprint.Proofs.BlankEndings
import Blueprint.Proofs.ElementOrder
import Blueprint.Proofs.LineStarts

/-!
The lines of a text next to its source. The lines with their line ends tile the bytes of the text, and
the content of a line is what the source has between the bounds of the line. Only at the end of the
text the two can differ: there the source leaves out a carriage return that no line feed follows.
-/

namespace Blueprint

namespace Line

/-- The bytes that are counted are those of the encoded text. -/
theorem size_utf8Encode (s : List Char) : s.utf8Encode.size = byteCount s := by
  induction s using List.reverseRecOn with
  | nil => rfl
  | append_singleton s c ih =>
    rw [List.utf8Encode_append, ByteArray.size_append, ih, List.utf8Encode_singleton,
      List.size_toByteArray, String.length_utf8EncodeChar, byteCount, byteCount, List.foldl_append]
    rfl

theorem byteCount_append (s t : List Char) : byteCount (s ++ t) = byteCount s + byteCount t := by
  rw [← size_utf8Encode, List.utf8Encode_append, ByteArray.size_append, size_utf8Encode,
    size_utf8Encode]

theorem byteCount_reverse (s : List Char) : byteCount s.reverse = byteCount s := by
  induction s with
  | nil => rfl
  | cons c r ih =>
    rw [List.reverse_cons, byteCount_append, ih, Nat.add_comm, ← byteCount_append,
      List.singleton_append]

/-- The bytes of a part of a text. -/
theorem extract_utf8Encode (a b c : List Char) :
    (a ++ (b ++ c)).utf8Encode.extract (byteCount a) (byteCount a + byteCount b) =
      b.utf8Encode := by
  rw [List.utf8Encode_append, List.utf8Encode_append, ← size_utf8Encode, ← size_utf8Encode]
  have hcut := ByteArray.extract_append_size_add (a := a.utf8Encode)
    (b := b.utf8Encode ++ c.utf8Encode) (i := 0) (j := b.utf8Encode.size)
  rwa [Nat.add_zero, ByteArray.extract_append_eq_left rfl] at hcut

/-- A line starts behind the bytes before it. -/
theorem linesFrom_start {start : Nat} {before : List Char} (h : start = byteCount before)
    (number : Nat) (read text : List Char) :
    ∀ l ∈ linesFrom number start before read text, l.start = byteCount l.before := by
  -- At a line feed both the offset and the text before the line move on by the line and its end.
  induction text generalizing number start before read with
  | nil =>
    intro l hl
    rw [List.mem_singleton.mp hl]
    exact h
  | cons c r ih =>
    unfold linesFrom
    by_cases hfeed : c = '\n'
    · have hnext : start + byteCount read + 1 = byteCount (c :: (read ++ before)) := by
        rw [h, ← List.singleton_append, byteCount_append, byteCount_append, hfeed,
          show byteCount ['\n'] = 1 from rfl]
        omega
      rw [if_pos hfeed]
      intro l hl
      rcases List.mem_cons.mp hl with rfl | hl
      · split <;> exact h
      · exact ih hnext _ _ l hl
    · rw [if_neg hfeed]
      exact ih h _ _

theorem start_of_mem {text : List Char} {l : Line} (h : l ∈ ofList text) :
    l.start = byteCount l.before :=
  @linesFrom_start 0 [] rfl 1 [] text l h

/-- The line end that follows the content; the last line has none. -/
def terminator (l : Line) : List Char :=
  match l.rest with
  | '\n' :: _ => ['\n']
  | '\r' :: '\n' :: _ => ['\r', '\n']
  | _ => []

/-- The byte offset just past the line end. -/
def past (l : Line) : Nat :=
  l.stop + byteCount l.terminator

/-- Lines that cover the bytes of a text one behind the other, each with its content and its line
end; the last line alone has no line end. -/
structure Tiles (bytes : ByteArray) (lines : List Line) : Prop where
  first : ∀ l ∈ lines.head?, l.start = 0
  next : lines.IsChain fun l after => l.past = after.start
  last : ∀ l ∈ lines.getLast?, l.past = bytes.size
  ended : ∀ l ∈ lines.dropLast, l.terminator ≠ []
  unended : ∀ l ∈ lines.getLast?, l.terminator = []
  content : ∀ l ∈ lines, bytes.extract l.start l.stop = l.content.utf8Encode
  terminator : ∀ l ∈ lines, bytes.extract l.stop l.past = l.terminator.utf8Encode

/-- What a line of a text knows of the text. -/
structure StandsIn (l : Line) (text : List Char) : Prop where
  parts : l.before.reverse ++ (l.content ++ l.rest) = text
  opens : OpensLine l.before.reverse
  number : l.number = l.before.reverse.count '\n' + 1
  feed : '\n' ∉ l.content
  rest : l.rest = [] ∨ ∃ (e : LineEnd) (r : List Char), l.rest = e.chars ++ r ∧
    (l.content.getLast? = some '\r' → e = .returnFeed)

variable {n : Nat} {before text : List Char} {l : Line} {lines : List Line}

theorem terminator_of_rest {e : LineEnd} {r : List Char} (h : l.rest = e.chars ++ r) :
    l.terminator = e.chars := by
  unfold terminator
  rw [h]
  cases e <;> rfl

theorem terminator_isPrefix (l : Line) : l.terminator <+: l.rest := by
  unfold terminator
  split
  next r h => exact ⟨r, h.symm⟩
  next r h => exact ⟨r, h.symm⟩
  · exact List.nil_prefix

theorem Cut.head (h : Cut n before text lines) : ∃ l, lines.head? = some l ∧ l.before = before := by
  cases h <;> exact ⟨_, rfl, rfl⟩

theorem Cut.ne_nil (h : Cut n before text lines) : lines ≠ [] := by
  cases h <;> exact List.cons_ne_nil _ _

theorem Cut.standsIn (h : Cut n before text lines) (hopens : OpensLine before.reverse)
    (hn : n = before.reverse.count '\n' + 1) :
    ∀ l ∈ lines, l.StandsIn (before.reverse ++ text) := by
  induction h with
  | @last _ before s offset hs =>
    intro l hl
    rw [List.mem_singleton.mp hl]
    exact ⟨by rw [List.append_nil], hopens, hn, hs, Or.inl rfl⟩
  | @line _ before s text lines offset e hs hreturn h ih =>
    have hfront : (e.chars.reverse ++ (s.reverse ++ before)).reverse =
        before.reverse ++ (s ++ e.chars) := by simp
    have hnext : OpensLine (before.reverse ++ (s ++ e.chars)) := by
      cases e with
      | feed => simpa [LineEnd.chars] using OpensLine.feed (before.reverse ++ s)
      | returnFeed => simpa [LineEnd.chars] using OpensLine.feed (before.reverse ++ (s ++ ['\r']))
    have hcount : (s ++ e.chars).count '\n' = 1 := by
      rw [List.count_append, List.count_eq_zero.mpr hs]
      cases e <;> rfl
    rw [hfront] at ih
    have hlater := ih hnext (by rw [List.count_append, hcount, hn])
    intro l hl
    rcases List.mem_cons.mp hl with rfl | hl
    · exact ⟨rfl, hopens, hn, hs, Or.inr ⟨e, text, rfl, hreturn⟩⟩
    · have := hlater l hl
      rwa [List.append_assoc, List.append_assoc] at this

theorem Cut.ended (h : Cut n before text lines) :
    (∀ l ∈ lines.dropLast, l.terminator ≠ []) ∧ ∀ l ∈ lines.getLast?, l.rest = [] := by
  induction h with
  | last offset hs =>
    refine ⟨nofun, fun l hl => ?_⟩
    cases hl
    rfl
  | @line _ before s text lines offset e hs hreturn h ih =>
    rw [List.dropLast_cons_of_ne_nil h.ne_nil, List.getLast?_cons_of_ne_nil h.ne_nil]
    refine ⟨fun l hl => ?_, ih.2⟩
    rcases List.mem_cons.mp hl with rfl | hl
    · rw [terminator_of_rest rfl]
      cases e <;> exact List.cons_ne_nil _ _
    · exact ih.1 l hl

theorem Cut.next (h : Cut n before text lines)
    (hstart : ∀ l ∈ lines, l.start = byteCount l.before) :
    lines.IsChain fun l after => l.past = after.start := by
  induction h with
  | last offset hs => exact .singleton _
  | @line _ before s text lines offset e hs hreturn h ih =>
    refine List.isChain_cons.mpr ⟨?_, ih fun l hl => hstart l (List.mem_cons_of_mem _ hl)⟩
    obtain ⟨after, hhead, hbefore⟩ := h.head
    intro l hl
    obtain rfl : after = l := Option.some.inj (hhead.symm.trans hl)
    rw [hstart after (List.mem_cons_of_mem _ (List.mem_of_head? hhead)), hbefore,
      byteCount_append, byteCount_append, byteCount_reverse, byteCount_reverse, past, stop,
      hstart _ List.mem_cons_self, terminator_of_rest rfl]
    dsimp only
    omega

theorem standsIn_of_mem (h : l ∈ ofList text) : l.StandsIn text :=
  (ofList_cut text).standsIn .nil rfl l h

theorem ofList_tiles (text : List Char) : Tiles text.utf8Encode (ofList text) := by
  have hcut := ofList_cut text
  have hstart {l : Line} (hl : l ∈ ofList text) : l.start = byteCount l.before.reverse := by
    rw [start_of_mem hl, byteCount_reverse]
  have hunended {l : Line} (hl : l ∈ (ofList text).getLast?) : l.terminator = [] := by
    rw [terminator, hcut.ended.2 l hl]
  refine ⟨?_, hcut.next fun l hl => start_of_mem hl, ?_, hcut.ended.1, fun l => hunended, ?_, ?_⟩
  · obtain ⟨first, hhead, hbefore⟩ := hcut.head
    intro l hl
    obtain rfl : first = l := Option.some.inj (hhead.symm.trans hl)
    rw [start_of_mem (List.mem_of_head? hhead), hbefore]
    rfl
  · intro l hl
    have hmem := List.mem_of_getLast? hl
    rw [size_utf8Encode, ← (standsIn_of_mem hmem).parts, hcut.ended.2 l hl, List.append_nil,
      byteCount_append, ← hstart hmem, past, hunended hl]
    rfl
  · intro l hl
    rw [← (standsIn_of_mem hl).parts, stop, hstart hl, extract_utf8Encode]
  · intro l hl
    obtain ⟨r, hrest⟩ := terminator_isPrefix l
    rw [← (standsIn_of_mem hl).parts, ← hrest, ← List.append_assoc, past, stop, hstart hl,
      ← byteCount_append, extract_utf8Encode]

end Line

namespace Source

/-- The length of a text without a carriage return at its end. -/
def lengthBeforeReturn (s : List Char) : Nat :=
  if s.getLast? = some '\r' then s.length - 1 else s.length

theorem lengthBeforeReturn_concat (s : List Char) :
    lengthBeforeReturn (s ++ ['\r']) = s.length := by
  rw [lengthBeforeReturn, if_pos List.getLast?_concat, List.length_append]
  exact Nat.add_sub_cancel _ _

/-- What tells that a line has a carriage return at its end. -/
theorem return_before_iff (s r : List Char) :
    0 < s.length ∧ (ofList (s ++ r)).char? (s.length - 1) = some '\r' ↔
      s.getLast? = some '\r' := by
  by_cases hnil : s = []
  · rw [hnil]
    exact ⟨fun h => absurd h.1 (Nat.lt_irrefl 0), nofun⟩
  · have hpos := List.length_pos_iff.mpr hnil
    rw [and_iff_right hpos, char?, ofList, List.getElem?_toArray,
      List.getElem?_append_left (by omega), List.getLast?_eq_getElem?]

theorem lineEnd_of_feed (s r : List Char) :
    (ofList (s ++ '\n' :: r)).lineEnd (s.count '\n' + 1) = lengthBeforeReturn s := by
  have hnext := getElem?_lineStarts (OpensLine.feed s) r
  rw [List.append_assoc, List.singleton_append, List.count_append, List.length_append,
    show ['\n'].count '\n' = 1 from rfl] at hnext
  rw [lineEnd, hnext]
  exact if_congr (return_before_iff s ('\n' :: r)) rfl rfl

theorem lineEnd_last (text : List Char) :
    (ofList text).lineEnd (text.count '\n' + 1) = lengthBeforeReturn text := by
  have hreturn := return_before_iff text []
  rw [List.append_nil] at hreturn
  rw [lineEnd, Array.getElem?_eq_none (size_lineStarts text).le]
  dsimp only
  rw [size_ofList]
  exact if_congr hreturn rfl rfl

end Source

namespace Line

variable {text : List Char} {l : Line}

namespace StandsIn

theorem lineStart (h : l.StandsIn text) :
    (Source.ofList text).lineStart l.number = l.before.reverse.length := by
  rw [← h.parts, h.number, Source.lineStart_of_opensLine h.opens]

theorem slice (h : l.StandsIn text) :
    (Source.ofList text).slice l.before.reverse.length
      (l.before.reverse.length + l.content.length) = l.content := by
  rw [Source.slice_ofList, ← h.parts, ← List.append_assoc, ← List.length_append, List.take_left,
    List.drop_left]

/-- A carriage return at the end of a line is one of the line, as a line starts behind a line
feed. -/
theorem getLast?_return (h : l.StandsIn text) :
    (l.before.reverse ++ l.content).getLast? = some '\r' ↔ l.content.getLast? = some '\r' := by
  by_cases hnil : l.content = []
  · rw [hnil, List.append_nil]
    exact ⟨fun hlast => absurd (h.opens _ hlast) (by decide), nofun⟩
  · rw [List.getLast?_append_of_ne_nil _ hnil]

theorem count_content (h : l.StandsIn text) : l.content.count '\n' = 0 :=
  List.count_eq_zero.mpr h.feed

/-- A line that a line end follows ends with its content, whatever the line end. -/
theorem lineEnd_of_ended (h : l.StandsIn text) (hrest : l.rest ≠ []) :
    (Source.ofList text).lineEnd l.number = l.before.reverse.length + l.content.length := by
  obtain ⟨e, r, hr, hreturn⟩ := h.rest.resolve_left hrest
  rw [← h.parts, hr, h.number, ← List.length_append]
  cases e with
  | feed =>
    have hplain : (l.before.reverse ++ l.content).getLast? ≠ some '\r' := fun hlast =>
      LineEnd.noConfusion (hreturn (h.getLast?_return.mp hlast))
    have hend := Source.lineEnd_of_feed (l.before.reverse ++ l.content) r
    rwa [List.count_append, h.count_content, List.append_assoc, Source.lengthBeforeReturn,
      if_neg hplain] at hend
  | returnFeed =>
    have hend := Source.lineEnd_of_feed (l.before.reverse ++ l.content ++ ['\r']) r
    rwa [List.count_append, List.count_append, h.count_content, Source.lengthBeforeReturn_concat,
      List.append_assoc, List.append_assoc] at hend

theorem number_lt_of_ended (h : l.StandsIn text) (hrest : l.rest ≠ []) :
    l.number < text.count '\n' + 1 := by
  obtain ⟨e, r, hr, -⟩ := h.rest.resolve_left hrest
  have hfeed : 0 < l.rest.count '\n' := by
    refine List.count_pos_iff.mpr (hr ▸ List.mem_append_left r ?_)
    cases e <;> decide
  rw [h.number, ← h.parts, List.count_append, List.count_append]
  omega

theorem number_last (h : l.StandsIn text) (hrest : l.rest = []) :
    l.number = text.count '\n' + 1 := by
  rw [h.number, ← h.parts, hrest, List.append_nil, List.count_append, h.count_content,
    Nat.add_zero]

/-- The source has a line as it is, unless the line is the last one and ends in a carriage return. -/
theorem content_eq_slice_iff (h : l.StandsIn text) :
    l.content = (Source.ofList text).slice ((Source.ofList text).lineStart l.number)
        ((Source.ofList text).lineEnd l.number) ↔
      (l.number = text.count '\n' + 1 → text.getLast? ≠ some '\r') := by
  -- Nothing follows the last line, so its end is the end of the text.
  by_cases hrest : l.rest = []
  · have htext : l.before.reverse ++ l.content = text := by
      rw [← h.parts, hrest, List.append_nil]
    have hlast := h.number_last hrest
    rw [h.lineStart, hlast, Source.lineEnd_last, Source.lengthBeforeReturn,
      forall_prop_of_true rfl]
    by_cases hreturn : text.getLast? = some '\r'
    · refine iff_of_false (fun hcontent => ?_) (not_not_intro hreturn)
      have hne : l.content ≠ [] :=
        List.ne_nil_of_mem (List.mem_of_getLast? (h.getLast?_return.mp (htext ▸ hreturn)))
      have hlength := congrArg List.length hcontent
      rw [if_pos hreturn, Source.slice_ofList, List.length_drop, List.length_take, ← htext,
        List.length_append] at hlength
      have hpos := List.length_pos_iff.mpr hne
      omega
    · rw [if_neg hreturn, ← htext, List.length_append, htext, h.slice]
      exact iff_of_true rfl hreturn
  · rw [h.lineStart, h.lineEnd_of_ended hrest, h.slice]
    exact iff_of_true rfl fun hlast => absurd hlast (Nat.ne_of_lt (h.number_lt_of_ended hrest))

end StandsIn

/-- The lines of a text agree with its source. There is one line more than line feeds, the lines are
numbered from 1 and tile the bytes of the text, and each has the characters that the source has
between its start and its end, but for the last line if the text ends in a carriage return. -/
theorem ofList_agrees (text : String) :
    let lines := ofList text.toList
    let source := Source.ofText text
    lines.length = text.toList.count '\n' + 1 ∧
      lines.map (·.number) = List.range' 1 lines.length ∧
      Tiles text.toUTF8 lines ∧
      ∀ l ∈ lines,
        l.content = source.slice (source.lineStart l.number) (source.lineEnd l.number) ↔
          (l.number = lines.length → text.toList.getLast? ≠ some '\r') := by
  intro lines source
  have hnumbers : lines.map (·.number) = List.range' 1 (text.toList.count '\n' + 1) :=
    lines_numbers text.toList
  have hlength : lines.length = text.toList.count '\n' + 1 := by
    have := congrArg List.length hnumbers
    rwa [List.length_map, List.length_range'] at this
  have htiles := ofList_tiles text.toList
  rw [String.utf8Encode_toList, ← String.toUTF8_eq_toByteArray] at htiles
  refine ⟨hlength, hlength ▸ hnumbers, htiles, fun l hl => ?_⟩
  rw [hlength]
  exact (standsIn_of_mem hl).content_eq_slice_iff

/-- A carriage return at the end of the text stays in the last line, and the source leaves it out. -/
theorem ofList_keeps_return :
    let source := Source.ofText "é: 1\r"
    (ofList "é: 1\r".toList).map (fun l => (l.number, l.content)) = [(1, "é: 1\r".toList)] ∧
      source.slice (source.lineStart 1) (source.lineEnd 1) = "é: 1".toList := by
  decide +kernel

-- A letter of two bytes, both line ends and a last line without one.
example :
    (ofList "é: 1\r\n\nb".toList).map (fun l => (l.start, l.stop, l.past)) =
      [(0, 5, 7), (7, 7, 8), (8, 9, 9)] := by
  decide

end Line

end Blueprint
