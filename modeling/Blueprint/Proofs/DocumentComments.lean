import Blueprint.Proofs.LexemeReach

/-!
Every comment of a document is yielded once: its `#` is the first one of its line between two
lexemes, and those do not share that line.
-/

namespace Blueprint

open Yaml (Token TokenKind Scan Reading charAt)

namespace Comment

variable {source : Source} {before : Lexeme} {index line column : Nat} {chunk : List Char} {i : Nat}

theorem idxOf_eq {s : List Char} {k : Nat} {c : Char} (hk : s[k]? = some c)
    (hfirst : ∀ j < k, s[j]? ≠ some c) : s.idxOf c = k := by
  induction s generalizing k with
  | nil => cases hk
  | cons d r ih =>
    cases k with
    | zero =>
      cases hk
      exact List.idxOf_cons_self
    | succ k =>
      have hne : d ≠ c := fun h => hfirst 0 (Nat.succ_pos k) (congrArg some h)
      rw [List.idxOf_cons_ne r hne, ih hk fun j hj => hfirst (j + 1) (Nat.succ_lt_succ hj)]

/-- The first `#` of a line is found. -/
theorem exists_inPieces (hi : chunk[i]? = some '#') (hfirst : ∀ j < i, chunk[j]? = some '#' →
      ∃ m, j < m ∧ m < i ∧ chunk[m]? = some '\n') :
    ∃ c ∈ inPieces source before index line column (Text.pieces '\n' chunk),
      c.index = index + i := by
  generalize hps : Text.pieces '\n' chunk = ps
  induction ps generalizing chunk index line column i with
  | nil =>
    rcases Text.pieces_cases '\n' chunk with ⟨_, heq⟩ | ⟨_, _, _, _, heq⟩ <;> simp [heq] at hps
  | cons piece r ih =>
    have hfound (hk : piece[i]? = some '#') (hnot : ∀ m < i, piece[m]? ≠ some '#') :
        ∃ c ∈ inPieces source before index line column (piece :: r), c.index = index + i := by
      have hplace := idxOf_eq hk hnot
      have hlt : piece.idxOf '#' < piece.length := hplace ▸ (List.getElem?_eq_some_iff.mp hk).1
      rw [inPieces, if_pos hlt]
      exact ⟨_, List.mem_cons_self, congrArg (index + ·) hplace⟩
    have hlater {c : Comment}
        (hc : c ∈ inPieces source before (index + piece.length + 1) (line + 1) 1 r) :
        c ∈ inPieces source before index line column (piece :: r) := by
      rw [inPieces]
      split
      · exact List.mem_cons_of_mem _ hc
      · exact hc
    rcases Text.pieces_cases '\n' chunk with ⟨hnot, heq⟩ | ⟨a, b, hs, hnot, heq⟩
    · rw [hps] at heq
      obtain ⟨rfl, rfl⟩ := List.cons.inj heq
      refine hfound hi fun j hj hfound => ?_
      obtain ⟨m, _, _, hm⟩ := hfirst j hj hfound
      exact hnot (List.mem_of_getElem? hm)
    · rw [hps] at heq
      obtain ⟨rfl, rfl⟩ := List.cons.inj heq
      by_cases hlt : i < piece.length
      · rw [hs, List.getElem?_append_left hlt] at hi
        refine hfound hi fun j hj hfound => ?_
        obtain ⟨m, _, hmi, hm⟩ := hfirst j hj
          (by rw [hs, List.getElem?_append_left (hj.trans hlt)]; exact hfound)
        rw [hs, List.getElem?_append_left (hmi.trans hlt)] at hm
        exact hnot (List.mem_of_getElem? hm)
      · have hshift (k : Nat) : chunk[piece.length + 1 + k]? = b[k]? := by
          rw [hs, List.getElem?_append_right (by omega),
            show piece.length + 1 + k - piece.length = k + 1 by omega, List.getElem?_cons_succ]
        have hne : i ≠ piece.length := by
          rintro rfl
          rw [hs, List.getElem?_append_right le_rfl, Nat.sub_self] at hi
          cases hi
        obtain ⟨k, rfl⟩ := Nat.exists_eq_add_of_le (show piece.length + 1 ≤ i by omega)
        rw [hshift] at hi
        obtain ⟨c, hc, hindex⟩ := @ih (index + piece.length + 1) (line + 1) 1 b k hi (by
          intro j hj hfound
          obtain ⟨m, hjm, hmi, hm⟩ := hfirst (piece.length + 1 + j) (by omega) (by rwa [hshift])
          obtain ⟨n, rfl⟩ := Nat.exists_eq_add_of_le (show piece.length + 1 ≤ m by omega)
          rw [hshift] at hm
          exact ⟨n, by omega, by omega, hm⟩) rfl
        exact ⟨c, hlater hc, by omega⟩

variable {text : List Char}

/-- The first `#` of its line between two lexemes starts a comment, if they do not share a line. -/
theorem exists_between {next : Option Lexeme} (hshare : shareLine before next = false)
    (hstop : before.stop.index ≤ i) (hnext : ∀ l ∈ next, i < l.start.index)
    (hhash : text[i]? = some '#')
    (hfirst : ∀ j, before.stop.index ≤ j → j < i → text[j]? = some '#' →
      lineAt text j < lineAt text i) :
    ∃ c ∈ between (Source.ofList text) before next, c.index = i := by
  obtain ⟨k, rfl⟩ := Nat.exists_eq_add_of_le hstop
  have hlimit : before.stop.index + k <
      (next.map (·.start.index)).getD (Source.ofList text).size := by
    cases next with
    | none => exact Source.size_ofList text ▸ (List.getElem?_eq_some_iff.mp hhash).1
    | some l => exact hnext l rfl
  have hslice {j : Nat} (hj : j ≤ k) : ((Source.ofList text).slice before.stop.index
      ((next.map (·.start.index)).getD (Source.ofList text).size))[j]? =
        text[before.stop.index + j]? := Lexeme.getElem?_slice (by omega)
  unfold between
  rw [hshare, if_neg Bool.false_ne_true]
  refine exists_inPieces ((hslice le_rfl).trans hhash) fun j hj hfound => ?_
  rw [hslice (Nat.le_of_lt hj)] at hfound
  obtain ⟨m, hjm, hmk, hfeed⟩ := exists_feed
    (hfirst _ (Nat.le_add_right _ j) (Nat.add_lt_add_left hj _) hfound)
  obtain ⟨n, rfl⟩ := Nat.exists_eq_add_of_le ((Nat.le_add_right _ j).trans hjm)
  have hne : j ≠ n := by
    rintro rfl
    rw [hfound] at hfeed
    cases hfeed
  exact ⟨n, by omega, by omega, (hslice (by omega)).trans hfeed⟩

/-- A `#` between two tokens, the first one there on its line. -/
structure IsFirstHash (source : Source) (before : Lexeme) (next : Option Lexeme) (i : Nat) :
    Prop where
  start : before.stop.index ≤ i
  limit : i < gapEnd source next
  hash : source.char? i = some '#'
  first : ∀ j, before.stop.index ≤ j → j < i → source.char? j = some '#' →
    (source.markAt j).line < (source.markAt i).line

theorem isFirstHash_of_mem {next : Option Lexeme} {n : Nat} {c : Comment}
    (hstop : before.stop = (Source.ofList text).markAt n)
    (h : c ∈ between (Source.ofList text) before next) :
    IsFirstHash (Source.ofList text) before next c.index := by
  obtain ⟨front, back, hgap, hindex, hstands, hfirst⟩ := mem_gap hstop h
  obtain ⟨hlimit, hhash⟩ := hash_of_gap hgap
  refine ⟨hindex ▸ Nat.le_add_right _ _, hindex ▸ hlimit, ?_, fun j hle hlt hj => ?_⟩
  · rw [hindex]
    exact List.getElem?_toArray.trans hhash
  · obtain ⟨k, rfl⟩ := Nat.exists_eq_add_of_le hle
    have hk : k < front.length := by omega
    have hchar : front[k] = '#' := by
      rw [← Option.some.injEq, ← List.getElem?_eq_getElem hk, ← getElem?_of_slice hgap hk]
      exact List.getElem?_toArray.symm.trans hj
    have hfront : front = front.take k ++ '#' :: front.drop (k + 1) := by
      rw [← hchar, ← List.drop_eq_getElem_cons hk, List.take_append_drop]
    have hline := hfirst _ _ hfront
    rwa [List.length_take, Nat.min_eq_left (Nat.le_of_lt hk), hstands.line] at hline

theorem exists_of_isFirstHash {next : Option Lexeme} (hshare : shareLine before next = false)
    (h : IsFirstHash (Source.ofList text) before next i) :
    ∃ c ∈ between (Source.ofList text) before next, c.index = i := by
  refine exists_between hshare h.start ?_ (List.getElem?_toArray.symm.trans h.hash) ?_
  · intro l hl
    have hlimit := h.limit
    rw [Option.mem_def.mp hl] at hlimit
    exact hlimit
  · intro j hle hlt hj
    have hline := h.first j hle hlt (List.getElem?_toArray.trans hj)
    rwa [(Source.markAt_ofList text j).2, (Source.markAt_ofList text i).2] at hline

/-- The comments behind a token are on different lines. Each stands where the source places its
index, at the first `#` of its line between the tokens, and goes to the end of the line. Unless the
tokens share a line, every such `#` starts one. -/
theorem between_places {next : Option Lexeme} {n : Nat}
    (hstop : before.stop = (Source.ofList text).markAt n) :
    (between (Source.ofList text) before next).Pairwise (·.line < ·.line) ∧
      (∀ c ∈ between (Source.ofList text) before next,
        IsFirstHash (Source.ofList text) before next c.index ∧
        c.StandsAt ((Source.ofList text).markAt c.index) ∧
        c.text = (Source.ofList text).slice c.index ((Source.ofList text).lineEnd c.line)) ∧
      (shareLine before next = false → ∀ i, IsFirstHash (Source.ofList text) before next i →
        ∃ c ∈ between (Source.ofList text) before next, c.index = i) := by
  refine ⟨between_lines _ _ _, fun c hc => ?_, fun hshare i => exists_of_isFirstHash hshare⟩
  obtain ⟨_, _, _, _, hstands, _⟩ := mem_gap hstop hc
  exact ⟨isFirstHash_of_mem hstop hc, hstands, between_text hc⟩

/-- Of two signs on a line the first one counts, and a carriage return at the end of a line belongs
to no comment. -/
theorem between_places_of_lines :
    let source := Source.ofList "a # x\r\n # y # z\nb".toList
    let before : Lexeme := ⟨.scalar "a" .plain, ⟨0, 1, 0⟩, ⟨1, 1, 1⟩⟩
    let next : Lexeme := ⟨.scalar "b" .plain, ⟨16, 3, 0⟩, ⟨17, 3, 1⟩⟩
    before.stop = source.markAt 1 ∧
      (between source before (some next)).map (fun c => (c.index, c.text)) =
        [(2, "# x".toList), (8, "# y # z".toList)] ∧
      ∀ c ∈ between source before (some next),
        IsFirstHash source before (some next) c.index ∧ c.StandsAt (source.markAt c.index) := by
  intro source before next
  have hstop : before.stop = source.markAt 1 := by decide
  refine ⟨hstop, by decide, fun c hc => ?_⟩
  obtain ⟨hfirst, hstands, _⟩ := (between_places hstop).2.1 c hc
  exact ⟨hfirst, hstands⟩

end Comment

namespace Element

variable {text : List Char}

theorem comments_ofLexemes_cons {source : Source} {prev : Option Lexeme}
    {path : List (Container × Mark)} {l : Lexeme} {r : List Lexeme} :
    comments (ofLexemes source prev path (l :: r)) =
      Comment.between source l r.head? ++
        comments (ofLexemes source (some l) (pathAfter path l) r) := by
  have hcomments (cs : List Comment) : comments (cs.map comment) = cs := by
    unfold comments
    rw [List.filterMap_map]
    exact List.filterMap_some
  rw [ofLexemes, List.cons_append]
  show comments (_ ++ _) = _
  unfold comments at hcomments ⊢
  rw [List.filterMap_append, hcomments]

/-- Comments come in the order of their places. -/
theorem ofLexemes_comments_sorted {prev : Option Lexeme} {path : List (Container × Mark)}
    {ls : List Lexeme} (hplaced : ∀ l ∈ ls, l.Placed text)
    (hsorted : ls.Pairwise fun l l' => min l.start.index text.length ≤ l'.start.index) :
    (comments (ofLexemes (Source.ofList text) prev path ls)).Pairwise (·.index < ·.index) := by
  induction ls generalizing prev path with
  | nil => exact .nil
  | cons l r ih =>
    obtain ⟨hl, hsorted⟩ := List.pairwise_cons.mp hsorted
    have hplaced' (m) (hm : m ∈ r) : m.Placed text := hplaced m (List.mem_cons_of_mem l hm)
    have hfacts {c : Comment} (hc : c ∈ Comment.between (Source.ofList text) l r.head?) :=
      Comment.mem_between (hplaced l List.mem_cons_self) hc
    rw [comments_ofLexemes_cons]
    refine List.pairwise_append.mpr ⟨?_, ih hplaced' hsorted, ?_⟩
    · refine (Comment.between_lines _ l r.head?).imp_of_mem fun {c d} hc hd hline => ?_
      rw [(hfacts hc).1, (hfacts hd).1] at hline
      by_contra hle
      exact absurd (lineAt_mono text (Nat.le_of_not_lt hle)) (Nat.not_le.mpr hline)
    · intro c hc d hd
      obtain ⟨_, hhash, _, _, hnext⟩ := hfacts hc
      obtain ⟨pre, before, post, hr, hbetween⟩ := mem_ofLexemes_between (mem_comments.mp hd)
      have hbefore : before ∈ r := hr ▸ List.mem_append_right _ List.mem_cons_self
      have hstart := (Comment.mem_between (hplaced' before hbefore) hbetween).2.2.1
      have hin := (List.getElem?_eq_some_iff.mp hhash).1
      cases pre with
      | nil => exact (hnext before (by rw [hr]; rfl)).trans_le hstart
      | cons m pre =>
        have hm := hnext m (by rw [hr]; rfl)
        rw [hr] at hsorted
        have := (List.pairwise_cons.mp hsorted).1 before
          (List.mem_append_right _ List.mem_cons_self)
        omega

theorem filter_index_eq {cs : List Comment} (hsorted : cs.Pairwise (·.index < ·.index))
    {c : Comment} (hc : c ∈ cs) : cs.filter (·.index = c.index) = [c] := by
  obtain ⟨front, back, rfl⟩ := List.append_of_mem hc
  obtain ⟨_, hback, hfront⟩ := List.pairwise_append.mp hsorted
  have hnone {ds : List Comment} (h : ∀ d ∈ ds, d.index ≠ c.index) :
      ds.filter (·.index = c.index) = [] := by
    rw [List.filter_eq_nil_iff]
    exact fun d hd => by simpa using h d hd
  rw [List.filter_append, List.filter_cons_of_pos (by simp),
    hnone fun d hd => Nat.ne_of_lt (hfront d hd c List.mem_cons_self),
    hnone fun d hd => Nat.ne_of_gt ((List.pairwise_cons.mp hback).1 d hd)]
  rfl

theorem mem_ofLexemes_of_between {source : Source} {prev : Option Lexeme}
    {path : List (Container × Mark)} {front back : List Lexeme} {before : Lexeme} {c : Comment}
    (hc : c ∈ Comment.between source before back.head?) :
    comment c ∈ ofLexemes source prev path (front ++ before :: back) := by
  rw [← mem_comments]
  induction front generalizing prev path with
  | nil =>
    rw [List.nil_append, comments_ofLexemes_cons]
    exact List.mem_append_left _ hc
  | cons l r ih =>
    rw [List.cons_append, comments_ofLexemes_cons]
    exact List.mem_append_right _ ih

end Element

namespace Yaml

/-- The tokens leave a comment to be found: the one before it is no block scalar, no directive
stands on its line, no block scalar and no end of a block stands behind it there, the line has no
carriage return of its own, and each `#` before it there is content of a scalar that holds no `#`
behind a blank character. -/
structure Scan.LeavesOpen (text : List Char) (i : Nat) : Prop where
  last : ∀ t ∈ (((Scan.ofList .document text).tokens.map (·.token)).filter
    (·.mark.index ≤ i)).getLast?, t.kind.isBlockScalar = false
  directives : ∀ t ∈ (Scan.ofList .document text).tokens.map (·.token), t.kind.isDirective →
    t.mark.line ≠ lineAt text i
  behind : ∀ t ∈ (Scan.ofList .document text).tokens.map (·.token),
    t.kind.isBlockScalar ∨ t.kind = .blockEnd → t.mark.Clears text i
  feeds : ∀ j < text.length, lineAt text j = lineAt text i → charAt text j = '\r' →
    charAt text (j + 1) = '\n'
  first : ∀ j < i, text[j]? = some '#' → lineAt text j = lineAt text i →
    ∃ r ∈ Scan.readings text, r.Holds j ∧ r.token.kind.isBlockScalar = false ∧ r.Joins text

set_option synthInstance.maxSize 400 in
instance (text : List Char) (i : Nat) : Decidable (Scan.LeavesOpen text i) :=
  decidable_of_iff (_ ∧ _ ∧ _ ∧ _ ∧ _)
    ⟨fun ⟨h₁, h₂, h₃, h₄, h₅⟩ => ⟨h₁, h₂, h₃, h₄, h₅⟩,
      fun ⟨h₁, h₂, h₃, h₄, h₅⟩ => ⟨h₁, h₂, h₃, h₄, h₅⟩⟩

instance (text : List Char) (i : Nat) : Decidable (Scan.StartsComment text i) :=
  decidable_of_iff (text[i]? = some '#' ∧
      (i = 0 ∨ inGap .document (charAt text (i - 1)) = true) ∧ ∀ r ∈ Scan.readings text, ¬r.Holds i)
    ⟨fun ⟨h₁, h₂, h₃⟩ => ⟨h₁, h₂, h₃⟩, fun ⟨h₁, h₂, h₃⟩ => ⟨h₁, h₂, h₃⟩⟩

end Yaml

section Found

variable {text : List Char} {i after : Nat} {pre post : List Token} {t : Token} {l : Lexeme}
  {w : Yaml.Scanner}

theorem exists_last {α : Type} {p : α → Prop} {xs : List α} (h : ∃ x ∈ xs, p x) :
    ∃ front x back, xs = front ++ x :: back ∧ p x ∧ ∀ y ∈ back, ¬p y := by
  induction xs with
  | nil =>
    obtain ⟨x, hx, _⟩ := h
    cases hx
  | cons a r ih =>
    by_cases hr : ∃ x ∈ r, p x
    · obtain ⟨front, x, back, rfl, hx, hback⟩ := ih hr
      exact ⟨a :: front, x, back, rfl, hx, hback⟩
    · obtain ⟨x, hx, hp⟩ := h
      rcases List.mem_cons.mp hx with rfl | hx
      · exact ⟨[], x, r, rfl, hp, fun y hy hpy => hr ⟨y, hy, hpy⟩⟩
      · exact absurd ⟨x, hx, hp⟩ hr

/-- The tokens that are left start no earlier than the next lexeme. -/
theorem lt_mark_of_lt_start (hsorted : post.Pairwise Token.MayPrecede)
    (hleads : post.IsChain Token.Leads)
    (hnext : ∀ m ∈ (Lexeme.madeFrom (Source.ofList text) after post).head?, i < m.start.index)
    (ht : t ∈ post) : i < t.mark.index := by
  cases post with
  | nil => cases ht
  | cons u r =>
    refine (hnext _ rfl).trans_le ?_
    rcases List.mem_cons.mp ht with rfl | ht
    · exact Lexeme.made_start_le_mark hleads
    · exact Lexeme.made_start_le hsorted hleads ht

/-- The lexeme before a comment does not reach it. -/
theorem made_stop_le_of_last (hw : w.Finished text (Scan.readings text))
    (htokens : w.queue = (Scan.ofList .document text).tokens.map (·.token))
    (hqueue : w.queue = pre ++ t :: post) (hcomment : Scan.StartsComment text i)
    (hopen : Scan.LeavesOpen text i)
    (hstart : (Lexeme.made (Source.ofList text) after t post.head?).start.index ≤ i)
    (hpost : ∀ u ∈ post, i < u.mark.index) :
    (Lexeme.made (Source.ofList text) after t post.head?).stop.index ≤ i := by
  have ht : t ∈ (Scan.ofList .document text).tokens.map (·.token) := by
    rw [← htokens, hqueue]
    exact List.mem_append_right _ List.mem_cons_self
  have hplaced : t.PlacedIn text := Yaml.scan_tokens_placedIn ht
  cases hblock : t.kind.isBlockScalar with
  | false => exact made_stop_le hw hqueue hcomment hplaced (hopen.directives t ht) hblock hstart
  | true =>
    rcases hopen.behind t ht (Or.inl hblock) with hle | hline
    · have hnone : post.filter (·.mark.index ≤ i) = [] :=
        List.filter_eq_nil_iff.mpr fun u hu => by simpa using hpost u hu
      have hlast : (w.queue.filter (·.mark.index ≤ i)).getLast? = some t := by
        rw [hqueue, List.filter_append, List.filter_cons_of_pos (by simpa using hle), hnone]
        exact List.getLast?_concat
      rw [hopen.last t (htokens ▸ hlast)] at hblock
      cases hblock
    · have hbound : t.kind.isBound = false ∧ t.kind ≠ .blockMappingStart := by
        cases hkind : t.kind <;> rw [hkind] at hblock <;>
          first | exact ⟨rfl, TokenKind.noConfusion⟩ | cases hblock
      obtain ⟨hbegin, hsame⟩ := Lexeme.begin_scalar_line hplaced hbound.1 after
      rw [Lexeme.made_start hbound.2] at hstart
      have hmono := lineAt_mono text hstart
      omega

/-- The lexeme before a comment does not share its line with the one behind the comment. -/
theorem shareLine_eq_false (hline : l.stop.line ≤ lineAt text i)
    (hplaced : ∀ u ∈ post, u.PlacedIn text) (hclears : ∀ u ∈ post, u.mark.Clears text i)
    (hpost : ∀ u ∈ post, i < u.mark.index) :
    Comment.shareLine l (Lexeme.madeFrom (Source.ofList text) after post).head? = false := by
  cases post with
  | nil => rfl
  | cons u r =>
    have hbehind {v : Token} (hv : v ∈ u :: r) : lineAt text i < v.mark.line :=
      (hclears v hv).resolve_left (Nat.not_le.mpr (hpost v hv))
    have hnext : lineAt text i <
        (Lexeme.made (Source.ofList text) after u r.head?).start.line := by
      rcases @Lexeme.made_start_cases (Source.ofList text) after u r.head? with h | ⟨_, v, hv, h⟩
      · rw [h, (Lexeme.begin_line (hplaced u List.mem_cons_self) after).2]
        exact hbehind List.mem_cons_self
      · rw [h]
        exact hbehind (List.mem_cons_of_mem u (List.mem_of_mem_head? hv))
    refine decide_eq_false ?_
    rintro ⟨hsame, _⟩
    omega

namespace Element

/-- Between a comment and the lexeme before it, no `#` stands on the line of the comment. -/
theorem line_lt_of_hash {front back : List Lexeme} {j : Nat}
    (hw : w.Finished text (Scan.readings text))
    (hls : Lexeme.madeFrom (Source.ofList text) 0 w.queue = front ++ l :: back)
    (hback : ∀ m ∈ back, i < m.start.index) (hopen : Scan.LeavesOpen text i)
    (hstop : l.stop.index ≤ j) (hji : j < i) (hhash : text[j]? = some '#') :
    lineAt text j < lineAt text i := by
  refine Nat.lt_of_le_of_ne (lineAt_mono text (Nat.le_of_lt hji)) fun hsame => ?_
  obtain ⟨r, hr, hholds, hblock, hjoins⟩ := hopen.first j hji hhash hsame
  have hends : r.EndsLines text := fun h => absurd (hblock.symm.trans h) Bool.false_ne_true
  obtain ⟨front', m, back', hls', hstart, hcovered⟩ :=
    exists_covering hw hr hholds hhash hends hjoins
  have hpast : l ∉ m :: back' := fun hl => absurd (hcovered l hl) (Nat.not_lt.mpr hstop)
  have hahead : m ∉ back := fun hm => by
    have := hback m hm
    omega
  rcases List.append_eq_append_iff.mp (hls.symm.trans hls') with ⟨mid, _, hmid⟩ | ⟨mid, _, hmid⟩
  · cases mid with
    | nil =>
      rw [List.nil_append] at hmid
      exact hpast (hmid ▸ List.mem_cons_self)
    | cons l' mid =>
      obtain ⟨_, rfl⟩ := List.cons.inj hmid
      exact hahead (List.mem_append_right _ List.mem_cons_self)
  · exact hpast (hmid ▸ List.mem_append_right _ List.mem_cons_self)

/-- A comment is found between the last lexeme that starts before it and the next one. -/
theorem exists_comment (herror : (Scan.ofList .document text).error = none)
    (hcomment : Scan.StartsComment text i) (hopen : Scan.LeavesOpen text i)
    {prev : Option Lexeme} {path : List (Container × Mark)} :
    ∃ c, c.index = i ∧ comment c ∈ ofLexemes (Source.ofList text) prev path
      (Lexeme.ofText (Source.ofList text) text) := by
  obtain ⟨w, hw, htokens⟩ := Yaml.scan_held herror
  have hsorted : w.queue.Pairwise Token.MayPrecede := htokens ▸ Yaml.scan_tokens_mayPrecede text
  have hplaced (u) (hu : u ∈ w.queue) : u.PlacedIn text := Yaml.scan_tokens_placedIn (htokens ▸ hu)
  have haside : Yaml.Aside text (Scan.readings text) i := by
    have hkept {r : Reading} (hr : r ∈ Scan.readings text) :
        r.token ∈ (Scan.ofList .document text).tokens.map (·.token) := by
      obtain ⟨pre, post, hqueue, _⟩ := hw.surveyed.placed r hr
      rw [← htokens, hqueue]
      exact List.mem_append_right _ List.mem_cons_self
    refine ⟨Yaml.charAt_of_getElem? hcomment.hash, hcomment.behindGap, hcomment.outside, ?_, ?_, ?_⟩
    · exact fun r hr => hopen.directives _ (hkept hr)
    · exact fun r hr hblock => hopen.behind _ (hkept hr) (Or.inl hblock)
    · intro j hline hreturn
      have hget := Yaml.getElem?_of_charAt hreturn (by decide)
      exact hopen.feeds j (List.getElem?_eq_some_iff.mp hget).1 hline hreturn
  have hclears (u) (hu : u ∈ w.queue) : u.mark.Clears text i := by
    rcases hw.cleared i haside u hu with hend | hclears
    · exact hopen.behind u (htokens ▸ hu) (Or.inr hend)
    · exact hclears
  have hofText : Lexeme.ofText (Source.ofList text) text =
      Lexeme.madeFrom (Source.ofList text) 0 w.queue := by
    rw [Lexeme.ofText_eq_madeFrom, htokens]
  have hhead : ∃ l ∈ Lexeme.madeFrom (Source.ofList text) 0 w.queue, l.start.index ≤ i := by
    have hstream := Yaml.scan_head? text
    rw [← htokens] at hstream
    obtain ⟨r, hqueue⟩ := List.head?_eq_some_iff.mp hstream
    refine ⟨_, by rw [hqueue, Lexeme.madeFrom]; exact List.mem_cons_self, ?_⟩
    rw [Lexeme.made_start TokenKind.noConfusion]
    exact Nat.zero_le i
  obtain ⟨front, l, back, hls, hstart, hback⟩ := exists_last hhead
  obtain ⟨pre, t, post, after, hqueue, rfl, rfl⟩ := Lexeme.eq_of_madeFrom hls
  have hmem {u : Token} (hu : u ∈ post) : u ∈ w.queue := by
    rw [hqueue]
    exact List.mem_append_right _ (List.mem_cons_of_mem t hu)
  have hafter (m) (hm : m ∈ Lexeme.madeFrom (Source.ofList text) _ post) : i < m.start.index :=
    Nat.lt_of_not_le (hback m hm)
  have hnext := fun m hm => hafter m (List.mem_of_mem_head? hm)
  have hpost (u) (hu : u ∈ post) : i < u.mark.index := by
    rw [hqueue] at hsorted
    have hleads := hw.surveyed.leads
    rw [hqueue] at hleads
    exact lt_mark_of_lt_start (List.pairwise_cons.mp (List.pairwise_append.mp hsorted).2.1).2
      hleads.right_of_append.of_cons hnext hu
  have hstop := made_stop_le_of_last hw htokens hqueue hcomment hopen hstart hpost
  have hline : (Lexeme.made (Source.ofList text) after t post.head?).stop.line ≤ lineAt text i := by
    have hmade := (Lexeme.ofText_order text).1 _
      (hofText ▸ hls ▸ List.mem_append_right front List.mem_cons_self)
    exact hmade.stop_line.trans_le (lineAt_mono text hstop)
  obtain ⟨c, hc, hindex⟩ := Comment.exists_between
    (shareLine_eq_false hline (fun u hu => hplaced u (hmem hu)) (fun u hu => hclears u (hmem hu))
      hpost) hstop hnext hcomment.hash fun j hj hji hhash =>
        line_lt_of_hash hw hls hafter hopen hj hji hhash
  refine ⟨c, hindex, ?_⟩
  rw [hofText, hls]
  exact mem_ofLexemes_of_between hc

/-- A comment that the tokens leave to be found is yielded once, with its text up to the end of its
line. -/
theorem comments_found {text : String} {i : Nat}
    (herror : (Scan.ofList .document text.toList).error = none)
    (hcomment : Scan.StartsComment text.toList i) (hopen : Scan.LeavesOpen text.toList i) :
    ∃ c, (comments (ofDocument text)).filter (·.index = i) = [c] ∧
      c.line = lineAt text.toList i ∧
      c.text = (Source.ofText text).slice i ((Source.ofText text).lineEnd c.line) := by
  obtain ⟨hplaced, _⟩ := Lexeme.ofText_order text.toList
  obtain ⟨c, rfl, hc⟩ := @exists_comment text.toList i herror hcomment hopen none []
  refine ⟨c, ?_, ?_⟩
  · rw [comments_ofDocument]
    exact filter_index_eq (ofLexemes_comments_sorted hplaced (ofText_starts herror))
      (mem_comments.mpr hc)
  · obtain ⟨pre, before, post, hls, hbetween⟩ := mem_ofLexemes_between hc
    have hbefore : before.Placed text.toList :=
      hplaced before (hls ▸ List.mem_append_right _ List.mem_cons_self)
    exact ⟨(Comment.mem_between hbefore hbetween).1, Comment.between_text hbetween⟩

theorem comments_found_behind_quoted :
    (Scan.ofList .document "b: 'c # d' # e\nf: 1\n".toList).error = none ∧
      Scan.StartsComment "b: 'c # d' # e\nf: 1\n".toList 11 ∧
      Scan.LeavesOpen "b: 'c # d' # e\nf: 1\n".toList 11 ∧
      ∃ c, (comments (ofDocument "b: 'c # d' # e\nf: 1\n")).filter (·.index = 11) = [c] ∧
        c.line = lineAt "b: 'c # d' # e\nf: 1\n".toList 11 ∧
        c.text = (Source.ofText "b: 'c # d' # e\nf: 1\n").slice 11
          ((Source.ofText "b: 'c # d' # e\nf: 1\n").lineEnd c.line) := by
  have herror : (Scan.ofList .document "b: 'c # d' # e\nf: 1\n".toList).error = none := by
    decide +kernel
  have hcomment : Scan.StartsComment "b: 'c # d' # e\nf: 1\n".toList 11 := by decide +kernel
  have hopen : Scan.LeavesOpen "b: 'c # d' # e\nf: 1\n".toList 11 := by decide +kernel
  exact ⟨herror, hcomment, hopen, comments_found herror hcomment hopen⟩

/-- A comment between a block scalar and the next token is not found: the lexeme of the scalar goes on
up to the line of that token. -/
theorem comment_missed_behind_block :
    (Scan.ofList .document "a: |\n  text\n# note\nb: 1\n".toList).error = none ∧
      Scan.StartsComment "a: |\n  text\n# note\nb: 1\n".toList 12 ∧
      comments (ofDocument "a: |\n  text\n# note\nb: 1\n") = [] := by
  decide +kernel

-- A lone carriage return ends a comment for the scanner only: a token follows on the same line.
example : Scan.StartsComment "- a # b\r- c\n".toList 4 ∧
    comments (ofDocument "- a # b\r- c\n") = [] := by
  decide +kernel

end Element

end Found

end Blueprint
