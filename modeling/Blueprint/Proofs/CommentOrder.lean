import Blueprint.Document.Comment
import Blueprint.Proofs.Positions
import Blueprint.Proofs.TokenWindow

/-!
The tokens of a document with their ranges: they start on lines that never go back, and each stops
at a position of the text that is not before its start.
-/

namespace Blueprint

/-- A position on its own line or, once the end of the text is met, at the start of the next one. -/
def Mark.StandsIn (text : List Char) (m : Mark) : Prop :=
  m.line = lineAt text m.index ∨
    (m.line = lineAt text m.index + 1 ∧ Yaml.isEnd (text.getD m.index '\x00') = true)

theorem Yaml.IsPlace.line {text : List Char} {m : Mark} (h : IsPlace text m) :
    m.line = lineAt text m.index := by
  obtain ⟨n, rfl⟩ := h
  obtain ⟨_, hindex, hline⟩ := skip_document text n
  rw [hindex, hline]

theorem Yaml.Token.PlacedIn.standsIn {text : List Char} {t : Token} (h : t.PlacedIn text) :
    t.mark.StandsIn text := by
  rcases h with hplace | ⟨_, n, hend, hm⟩
  · exact Or.inl hplace.line
  · obtain ⟨hrest, hindex, hline⟩ := skip_document text n
    right
    rw [hm]
    refine ⟨by rw [hindex, hline], ?_⟩
    unfold Cursor.first at hend
    rw [hrest] at hend
    show isEnd (text.getD ((Cursor.ofList text).skip .document n).mark.index '\x00') = true
    rw [hindex]
    simpa [List.headD_eq_head?_getD, List.head?_drop, List.getD_eq_getElem?_getD] using hend

namespace Lexeme

/-- The token starts in the text and stops at one of its positions, not before its start. -/
structure Placed (text : List Char) (l : Lexeme) : Prop where
  start : l.start.StandsIn text
  stop : ∃ i, l.start.index ≤ i ∧ l.stop = (Source.ofList text).markAt i

variable {text : List Char}

theorem finish_start (source : Source) (l : Lexeme) (limit : Nat) :
    (l.finish source limit).start = l.start := rfl

theorem Placed.finish {l : Lexeme} (h : l.start.StandsIn text) (limit : Nat) :
    (l.finish (Source.ofList text) limit).Placed text :=
  ⟨h, _, Nat.le_max_left _ _, rfl⟩

theorem Placed.stop_line {l : Lexeme} (h : l.Placed text) :
    l.stop.line = lineAt text l.stop.index := by
  obtain ⟨i, _, hstop⟩ := h.stop
  obtain ⟨hindex, hline⟩ := Source.markAt_ofList text i
  rw [hstop, hindex, hline, lineAt_min]

theorem anchored_start (l : Lexeme) (t : Yaml.Token) :
    (l.anchored t).start = l.start ∨ (l.anchored t).start = t.mark := by
  unfold anchored
  split
  · exact Or.inr rfl
  · exact Or.inl rfl

/-- A block scalar that is placed at its indicator stays on its line. -/
theorem atIndicator_line {l : Lexeme} (h : l.start.line = lineAt text l.start.index)
    (after : Nat) : (l.atIndicator (Source.ofList text) after).start.line =
        lineAt text (l.atIndicator (Source.ofList text) after).start.index ∧
      (l.atIndicator (Source.ofList text) after).start.line = l.start.line := by
  unfold atIndicator
  dsimp only
  split
  next hlt =>
    obtain ⟨hindex, hline⟩ := Source.markAt_ofList text
      (max after ((Source.ofList text).lineStart l.start.line) + _)
    rw [hindex, hline, lineAt_min]
    refine ⟨rfl, ?_⟩
    have hup := lineAt_mono text (Nat.le_of_lt hlt)
    have hstart := (Source.lineStart_lineAt text l.start.index).2
    rw [← h] at hstart hup
    have hfirst : (Source.ofList text).lineStart l.start.line ≤
        max after ((Source.ofList text).lineStart l.start.line) := Nat.le_max_right _ _
    have hdown := lineAt_mono text (Nat.le_add_right_of_le hfirst
      (k := ((((Source.ofList text).slice (max after ((Source.ofList text).lineStart l.start.line))
        l.start.index).takeWhile fun c => !opensBlockText (some c)).length)))
    omega
  · exact ⟨h, rfl⟩

/-- The lexeme of a scalar starts on the line of the scalar. -/
theorem begin_scalar_line {t : Yaml.Token} (h : t.PlacedIn text) (hkind : t.kind.isBound = false)
    (after : Nat) : (begin (Source.ofList text) t after).start.line =
        lineAt text (begin (Source.ofList text) t after).start.index ∧
      (begin (Source.ofList text) t after).start.line = t.mark.line := by
  have hline : t.mark.line = lineAt text t.mark.index := by
    rcases h with hplace | ⟨hbound, _⟩
    · exact hplace.line
    · rw [hkind] at hbound
      cases hbound
  unfold begin
  dsimp only
  split
  · exact atIndicator_line hline after
  · exact atIndicator_line hline after
  · exact ⟨hline, rfl⟩

theorem begin_line {t : Yaml.Token} (h : t.PlacedIn text) (after : Nat) :
    (begin (Source.ofList text) t after).start.StandsIn text ∧
      (begin (Source.ofList text) t after).start.line = t.mark.line := by
  cases hkind : t.kind.isBound with
  | false =>
    obtain ⟨hline, hsame⟩ := begin_scalar_line h hkind after
    exact ⟨Or.inl hline, hsame⟩
  | true =>
    have hbegin : begin (Source.ofList text) t after = ⟨t.kind, t.mark, t.mark⟩ := by
      unfold begin
      dsimp only
      split
      next heq =>
        rw [heq] at hkind
        cases hkind
      next heq =>
        rw [heq] at hkind
        cases hkind
      · rfl
    rw [hbegin]
    exact ⟨h.standsIn, rfl⟩

theorem placeFrom_order {last : Lexeme} {ts : List Yaml.Token}
    (hlast : last.start.StandsIn text) (hle : ∀ t ∈ ts, last.start.line ≤ t.mark.line)
    (hsorted : ts.Pairwise fun t u => t.mark.line ≤ u.mark.line)
    (hplaced : ∀ t ∈ ts, t.PlacedIn text) :
    (∀ l ∈ placeFrom (Source.ofList text) last ts, l.Placed text ∧ last.start.line ≤ l.start.line) ∧
      (placeFrom (Source.ofList text) last ts).Pairwise (·.start.line ≤ ·.start.line) := by
  induction ts generalizing last with
  | nil =>
    refine ⟨?_, List.pairwise_singleton _ _⟩
    intro l hl
    rw [placeFrom, List.mem_singleton] at hl
    rw [hl]
    exact ⟨.finish hlast _, le_rfl⟩
  | cons t r ih =>
    obtain ⟨hr, hsorted⟩ := List.pairwise_cons.mp hsorted
    have ht := hle t List.mem_cons_self
    have hplace := hplaced t List.mem_cons_self
    have hanchored : (last.anchored t).start.StandsIn text ∧
        last.start.line ≤ (last.anchored t).start.line ∧
        (last.anchored t).start.line ≤ t.mark.line := by
      rcases anchored_start last t with h | h
      · rw [h]
        exact ⟨hlast, le_rfl, ht⟩
      · rw [h]
        exact ⟨hplace.standsIn, ht, le_rfl⟩
    obtain ⟨hstands, hlow, hhigh⟩ := hanchored
    obtain ⟨hbegin, hline⟩ :=
      begin_line hplace ((last.anchored t).finish (Source.ofList text) t.mark.index).stop.index
    obtain ⟨hall, hpair⟩ := ih hbegin (fun u hu => by rw [hline]; exact hr u hu) hsorted
      (fun u hu => hplaced u (List.mem_cons_of_mem t hu))
    rw [placeFrom]
    refine ⟨?_, List.pairwise_cons.mpr ⟨?_, hpair⟩⟩
    · intro l hl
      rcases List.mem_cons.mp hl with rfl | hl
      · exact ⟨.finish hstands _, hlow⟩
      · obtain ⟨hl, hge⟩ := hall l hl
        exact ⟨hl, by omega⟩
    · intro l hl
      have hge := (hall l hl).2
      rw [finish_start]
      omega

theorem ofText_order (text : List Char) :
    (∀ l ∈ ofText (Source.ofList text) text, l.Placed text) ∧
      (ofText (Source.ofList text) text).Pairwise (·.start.line ≤ ·.start.line) := by
  have hsorted := (Yaml.scan_tokens_mayPrecede text).imp fun h => h.1
  have hplaced : ∀ t ∈ (Yaml.Scan.ofList .document text).tokens.map (·.token), t.PlacedIn text :=
    fun t ht => Yaml.scan_tokens_placedIn ht
  unfold ofText
  generalize (Yaml.Scan.ofList .document text).tokens.map (·.token) = ts at hsorted hplaced ⊢
  cases ts with
  | nil => exact ⟨(by intro l hl; cases hl), .nil⟩
  | cons t r =>
    obtain ⟨hr, hsorted⟩ := List.pairwise_cons.mp hsorted
    have hstands : (⟨t.kind, t.mark, t.mark⟩ : Lexeme).start.StandsIn text :=
      (hplaced t List.mem_cons_self).standsIn
    obtain ⟨hall, hpair⟩ :=
      placeFrom_order hstands hr hsorted (fun u hu => hplaced u (List.mem_cons_of_mem t hu))
    exact ⟨fun l hl => (hall l hl).1, hpair⟩

end Lexeme

end Blueprint

/-!
Comments between two tokens stand where their `#` stands: behind the token before them, ahead of the
one after them, and no two on one line.
-/

namespace Blueprint

theorem Text.pieces_cases (separator : Char) (s : List Char) :
    (separator ∉ s ∧ pieces separator s = [s]) ∨
      ∃ a b, s = a ++ separator :: b ∧ separator ∉ a ∧
        pieces separator s = a :: pieces separator b := by
  induction s with
  | nil => exact Or.inl ⟨by simp, rfl⟩
  | cons c r ih =>
    rcases ih with ⟨hnot, heq⟩ | ⟨a, b, hs, hnot, heq⟩
    · rw [pieces, heq]
      by_cases hc : c = separator
      · exact Or.inr ⟨[], r, by rw [hc]; rfl, by simp, by simp [hc, heq]⟩
      · refine Or.inl ⟨?_, by simp [hc]⟩
        intro hmem
        rcases List.mem_cons.mp hmem with h | h
        · exact hc h.symm
        · exact hnot h
    · rw [pieces, heq]
      by_cases hc : c = separator
      · exact Or.inr ⟨[], r, by rw [hc]; rfl, by simp, by simp [hc, heq]⟩
      · refine Or.inr ⟨c :: a, b, by rw [hs]; rfl, ?_, by simp [hc]⟩
        intro hmem
        rcases List.mem_cons.mp hmem with h | h
        · exact hc h.symm
        · exact hnot h

namespace Comment

/-- A NUL, which ends the document for its reader, stands before the comment on its line. -/
def FollowsNul (source : Source) (c : Comment) : Prop :=
  '\x00' ∈ source.slice (source.lineStart c.line) c.index

instance (source : Source) (c : Comment) : Decidable (c.FollowsNul source) :=
  inferInstanceAs (Decidable (_ ∈ _))

/-- The `#` of the comment stands at the position; its column is counted from 1. -/
structure StandsAt (c : Comment) (m : Mark) : Prop where
  index : c.index = m.index
  line : c.line = m.line
  column : c.column = m.column + 1

/-- Where the text between a token and the one after it ends. -/
def gapEnd (source : Source) (next : Option Lexeme) : Nat :=
  (next.map (·.start.index)).getD source.size

theorem inPieces_lines (source : Source) (before : Lexeme) (index line column : Nat)
    (ps : List (List Char)) :
    (∀ c ∈ inPieces source before index line column ps, line ≤ c.line) ∧
      (inPieces source before index line column ps).Pairwise (·.line < ·.line) := by
  induction ps generalizing index line column with
  | nil => exact ⟨(by intro c hc; cases hc), .nil⟩
  | cons piece r ih =>
    obtain ⟨hge, hpair⟩ := ih (index + piece.length + 1) (line + 1) 1
    rw [inPieces]
    split
    · refine ⟨?_, List.pairwise_cons.mpr ⟨?_, hpair⟩⟩
      · intro c hc
        rcases List.mem_cons.mp hc with rfl | hc
        · exact le_rfl
        · exact (hge c hc).trans' (Nat.le_succ line)
      · exact fun c hc => hge c hc
    · exact ⟨fun c hc => (hge c hc).trans' (Nat.le_succ line), hpair⟩

theorem between_lines (source : Source) (before : Lexeme) (next : Option Lexeme) :
    (between source before next).Pairwise (·.line < ·.line) := by
  unfold between
  split
  · exact .nil
  · exact (inPieces_lines _ _ _ _ _ _).2

/-- A comment starts with the first `#` of its line in the text that is searched. -/
theorem mem_inPieces {source : Source} {before : Lexeme} {m : Mark} {chunk : List Char}
    {c : Comment}
    (h : c ∈ inPieces source before m.index m.line (m.column + 1) (Text.pieces '\n' chunk)) :
    ∃ front back, chunk = front ++ '#' :: back ∧ c.StandsAt (front.foldl Mark.past m) ∧
      ∀ a b, front = a ++ '#' :: b → (a.foldl Mark.past m).line < c.line := by
  generalize hps : Text.pieces '\n' chunk = ps at h
  induction ps generalizing chunk m with
  | nil => cases h
  | cons piece r ih =>
    have hfound (hnot : '\n' ∉ piece) (hlt : piece.idxOf '#' < piece.length) :
        ∃ front back, piece = front ++ '#' :: back ∧
          (create source before (m.index + piece.idxOf '#') m.line
            (m.column + 1 + piece.idxOf '#')).StandsAt (front.foldl Mark.past m) ∧
          '#' ∉ front := by
      obtain ⟨front, back, hpiece, hfirst⟩ :=
        List.eq_append_cons_of_mem (List.idxOf_lt_length_iff.mp hlt)
      have hplace : piece.idxOf '#' = front.length := by
        rw [hpiece, List.idxOf_append_of_notMem hfirst, List.idxOf_cons_self]
        rfl
      have hon : '\n' ∉ front := fun hmem => hnot (hpiece ▸ List.mem_append_left _ hmem)
      refine ⟨front, back, hpiece, ?_, hfirst⟩
      rw [Mark.foldl_past_of_notMem hon, hplace]
      exact ⟨rfl, rfl, Nat.add_right_comm _ _ _⟩
    have hnone {front a b : List Char} (hfirst : '#' ∉ front) (hab : front = a ++ '#' :: b) :
        False := hfirst (hab ▸ List.mem_append_right _ List.mem_cons_self)
    rw [inPieces] at h
    rcases Text.pieces_cases '\n' chunk with ⟨hnot, heq⟩ | ⟨a, b, hs, hnot, heq⟩
    · rw [hps] at heq
      obtain ⟨rfl, rfl⟩ := List.cons.inj heq
      split at h
      next hlt =>
        obtain ⟨front, back, hpiece, hstands, hfirst⟩ := hfound hnot hlt
        obtain rfl := List.mem_singleton.mp h
        exact ⟨front, back, hpiece, hstands, fun a b hab => (hnone hfirst hab).elim⟩
      · cases h
    · rw [hps] at heq
      obtain ⟨rfl, rfl⟩ := List.cons.inj heq
      have hpast : (piece ++ ['\n']).foldl Mark.past m =
          ⟨m.index + piece.length + 1, m.line + 1, 0⟩ := by
        rw [List.foldl_append, Mark.foldl_past_of_notMem hnot]
        rfl
      -- The pieces behind this one start on the next line, in its first column.
      have hlater (h : c ∈ inPieces source before (m.index + piece.length + 1) (m.line + 1) 1
          (Text.pieces '\n' b)) :
          ∃ front back, chunk = front ++ '#' :: back ∧ c.StandsAt (front.foldl Mark.past m) ∧
            ∀ a b, front = a ++ '#' :: b → (a.foldl Mark.past m).line < c.line := by
        obtain ⟨front, back, hb, hstands, hfirst⟩ :=
          ih (m := ⟨m.index + piece.length + 1, m.line + 1, 0⟩) rfl h
        have hmark (s : List Char) : (piece ++ '\n' :: s).foldl Mark.past m =
            s.foldl Mark.past ⟨m.index + piece.length + 1, m.line + 1, 0⟩ := by
          rw [← hpast, ← List.foldl_append, List.append_assoc, List.singleton_append]
        refine ⟨piece ++ '\n' :: front, back, ?_, ?_, ?_⟩
        · rw [hs, hb, List.append_assoc, List.cons_append]
        · rwa [hmark]
        · intro x y hxy
          rcases List.append_eq_append_iff.mp hxy with ⟨z, rfl, hz⟩ | ⟨z, hpiece, -⟩
          · cases z with
            | nil => cases hz
            | cons d z =>
              obtain ⟨rfl, hfront⟩ := List.cons.inj hz
              rw [hmark]
              exact hfirst z y hfront
          · have hx : '\n' ∉ x := fun hmem => hnot (hpiece ▸ List.mem_append_left _ hmem)
            rw [Mark.foldl_past_of_notMem hx, hstands.line, (Mark.foldl_past _ front).2]
            exact Nat.lt_of_lt_of_le (Nat.lt_succ_self _) (Nat.le_add_right _ _)
      split at h
      next hlt =>
        rcases List.mem_cons.mp h with rfl | h
        · obtain ⟨front, back, hpiece, hstands, hfirst⟩ := hfound hnot hlt
          refine ⟨front, back ++ '\n' :: b, ?_, hstands, fun a b hab => (hnone hfirst hab).elim⟩
          rw [hs, hpiece, List.append_assoc, List.cons_append]
        · exact hlater h
      · exact hlater h

/-- The text of a comment goes to the end of its line. -/
theorem inPieces_text {source : Source} {before : Lexeme} {index line column : Nat}
    {ps : List (List Char)} {c : Comment} (h : c ∈ inPieces source before index line column ps) :
    c.text = source.slice c.index (source.lineEnd c.line) := by
  induction ps generalizing index line column with
  | nil => cases h
  | cons piece r ih =>
    rw [inPieces] at h
    split at h
    · rcases List.mem_cons.mp h with rfl | h
      · rfl
      · exact ih h
    · exact ih h

theorem between_text {source : Source} {before : Lexeme} {next : Option Lexeme} {c : Comment}
    (h : c ∈ between source before next) :
    c.text = source.slice c.index (source.lineEnd c.line) := by
  unfold between at h
  split at h
  · cases h
  · exact inPieces_text h

section Gap

variable {text : List Char} {before : Lexeme} {next : Option Lexeme} {n stop : Nat}
  {s r : List Char} {c : Comment}

theorem prefix_of_slice {start : Nat} (h : (Source.ofList text).slice start stop = s ++ r) :
    s <+: text.drop start := by
  rw [Source.slice_ofList, List.drop_take] at h
  exact (List.prefix_append s r).trans (h ▸ List.take_prefix _ _)

theorem getElem?_of_slice {start j : Nat} (h : (Source.ofList text).slice start stop = s ++ r)
    (hj : j < s.length) : text[start + j]? = s[j]? := by
  obtain ⟨t, ht⟩ := prefix_of_slice h
  rw [← List.getElem?_drop, ← ht, List.getElem?_append_left hj]

/-- The gap behind a token is passed over from where the token stops. -/
theorem markAt_gap (hstop : before.stop = (Source.ofList text).markAt n)
    (h : (Source.ofList text).slice before.stop.index stop = s ++ r) :
    (Source.ofList text).markAt (before.stop.index + s.length) = s.foldl Mark.past before.stop := by
  have hself : (Source.ofList text).markAt before.stop.index = before.stop := by
    rw [hstop, (Source.markAt_ofList text n).1, Source.markAt_min]
  rw [Source.markAt_add, hself, ← List.prefix_iff_eq_take.mp (prefix_of_slice h)]

theorem hash_of_gap {start : Nat} (h : (Source.ofList text).slice start stop = s ++ '#' :: r) :
    start + s.length < stop ∧ text[start + s.length]? = some '#' := by
  have hlength := congrArg List.length h
  rw [Source.slice_ofList, List.length_drop, List.length_take, List.length_append,
    List.length_cons] at hlength
  rw [List.append_cons] at h
  refine ⟨by omega, (getElem?_of_slice h (by simp)).trans ?_⟩
  rw [List.getElem?_append_right le_rfl, Nat.sub_self]
  rfl

/-- A comment stands at the first `#` of its line in the gap behind a token. -/
theorem mem_gap (hstop : before.stop = (Source.ofList text).markAt n)
    (h : c ∈ between (Source.ofList text) before next) :
    ∃ front back, (Source.ofList text).slice before.stop.index
        (gapEnd (Source.ofList text) next) = front ++ '#' :: back ∧
      c.index = before.stop.index + front.length ∧
      c.StandsAt ((Source.ofList text).markAt c.index) ∧
      ∀ a b, front = a ++ '#' :: b →
        ((Source.ofList text).markAt (before.stop.index + a.length)).line < c.line := by
  unfold between at h
  split at h
  · cases h
  · obtain ⟨front, back, hgap, hstands, hfirst⟩ := mem_inPieces h
    have hindex : c.index = before.stop.index + front.length :=
      hstands.index.trans (Mark.foldl_past _ front).1
    refine ⟨front, back, hgap, hindex, ?_, fun a b hab => ?_⟩
    · rwa [hindex, markAt_gap hstop hgap]
    · have hline := hfirst a b hab
      subst hab
      rw [List.append_assoc] at hgap
      rwa [markAt_gap hstop hgap]

end Gap

variable {text : List Char}

/-- What is known of the place of a comment between `before` and `next`. -/
theorem mem_between {before : Lexeme} {next : Option Lexeme} {c : Comment}
    (hstop : before.Placed text) (h : c ∈ between (Source.ofList text) before next) :
    c.line = lineAt text c.index ∧ text[c.index]? = some '#' ∧ before.start.index ≤ c.index ∧
      before.stop.index ≤ c.index ∧ ∀ l ∈ next, c.index < l.start.index := by
  obtain ⟨n, hle, hmark⟩ := hstop.stop
  obtain ⟨front, back, hgap, hindex, hstands, -⟩ := mem_gap hmark h
  obtain ⟨hlimit, hhash⟩ := hash_of_gap hgap
  rw [← hindex] at hlimit hhash
  have hin := (List.getElem?_eq_some_iff.mp hhash).1
  have hstart : before.stop.index = min n text.length :=
    (congrArg Mark.index hmark).trans (Source.markAt_ofList text n).1
  refine ⟨hstands.line.trans (Source.markAt_ofList text _).2, hhash, by omega, by omega, ?_⟩
  intro l hl
  rw [Option.mem_def.mp hl] at hlimit
  exact hlimit

/-- A token that a comment follows starts on the line of the comment or before it. Only a NUL in
front of the comment could make it start later. -/
theorem line_le_of_standsIn {m : Mark} {c : Comment} (hm : m.StandsIn text)
    (hline : c.line = lineAt text c.index) (hchar : text[c.index]? = some '#')
    (hle : m.index ≤ c.index) (hnul : ¬c.FollowsNul (Source.ofList text)) : m.line ≤ c.line := by
  have hmono := lineAt_mono text hle
  rcases hm with hm | ⟨hm, hend⟩
  · omega
  · by_contra hlt
    have hsame : lineAt text m.index = c.line := by omega
    obtain ⟨hlow, _⟩ := Source.lineStart_lineAt text m.index
    rw [hsame] at hlow
    have hin := (List.getElem?_eq_some_iff.mp hchar).1
    have hget : text[m.index]? = some '\x00' := by
      rw [List.getElem?_eq_getElem (by omega)]
      rw [List.getD_eq_getElem?_getD, List.getElem?_eq_getElem (by omega)] at hend
      simpa [Yaml.isEnd] using hend
    have hne : m.index ≠ c.index := by
      intro heq
      rw [heq, hchar] at hget
      cases hget
    apply hnul
    unfold FollowsNul
    rw [Source.slice_ofList]
    apply List.mem_of_getElem? (i := m.index - (Source.ofList text).lineStart c.line)
    rw [List.getElem?_drop, List.getElem?_take, if_pos (by omega), ← hget]
    congr 1
    omega

/-- A comment is not on a later line than a token that it precedes. -/
theorem line_le_start {m : Mark} {c : Comment} (hm : m.StandsIn text)
    (hline : c.line = lineAt text c.index) (hle : c.index ≤ m.index) : c.line ≤ m.line := by
  have hmono := lineAt_mono text hle
  rcases hm with hm | ⟨hm, _⟩
  · omega
  · omega

end Comment

end Blueprint
