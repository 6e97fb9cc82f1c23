import Blueprint.Lint.Rules.Values
import Blueprint.Proofs.OrdinaryLines
import Blueprint.Proofs.TokenWindow

/-!
What the rules about the space around signs have to find on a line to report it: white space before a
sign, or too much or too little of it behind one.
-/

namespace Blueprint

open Yaml (Token TokenKind PlacedToken charAt)

/-! Lines without a fault. -/

/-- No white space stands before a sign. -/
def TightBefore (sign : Char) (line : List Char) : Prop :=
  ∀ x, Text.isBlank x = true → ¬[x, sign] <:+: line

/-- At most one blank character stands before a sign. -/
def OneBefore (sign : Char) (line : List Char) : Prop :=
  ∀ x y, Text.isBlank x = true → Text.isBlank y = true → ¬[x, y, sign] <:+: line

/-- At most one space or tab stands behind a sign. -/
def OneAfter (sign : Char) (line : List Char) : Prop :=
  ∀ x y, Yaml.isSpace x = true → Yaml.isSpace y = true → ¬[sign, x, y] <:+: line

/-- A space or a line end stands right behind a sign. -/
def SpaceAfter (sign : Char) (line : List Char) : Prop :=
  ∀ x, [sign, x] <:+: line → x = ' ' ∨ FileLines.isTerminator x = true

/-- A line on which no space around a colon or behind a question mark is too much. -/
structure TidyColons (line : List Char) : Prop where
  before : TightBefore ':' line
  after : OneAfter ':' line
  question : OneAfter '?' line

/-- A line on which each comma stands behind something else and before one space or the line end. -/
structure TidyCommas (line : List Char) : Prop where
  first : line.head? ≠ some ','
  before : TightBefore ',' line
  after : OneAfter ',' line
  apart : SpaceAfter ',' line

/-- A line without more than one space inside its brackets. -/
structure TidyInside (opening closing : Char) (line : List Char) : Prop where
  after : OneAfter opening line
  before : OneBefore closing line

/-! Numbers of spaces. -/

namespace Spacing

variable {b : Spacing} {rule : String} {spaces : Int} {line column : Nat} {q : Problem} {l : Lexeme}

theorem mem_check (h : q ∈ b.check rule spaces line column) : q.line = line ∧
    ((∃ max, b.max = some max ∧ max < spaces) ∨ ∃ min, b.min = some min ∧ spaces < min) := by
  unfold check at h
  split at h
  next hmax =>
    obtain ⟨max, hmem, hlt⟩ := (Option.any_eq_true ..).mp hmax
    rw [List.mem_singleton.mp h]
    exact ⟨rfl, Or.inl ⟨max, hmem, of_decide_eq_true hlt⟩⟩
  · split at h
    next hmin =>
      obtain ⟨min, hmem, hlt⟩ := (Option.any_eq_true ..).mp hmin
      rw [List.mem_singleton.mp h]
      exact ⟨rfl, Or.inr ⟨min, hmem, of_decide_eq_true hlt⟩⟩
    · cases h

theorem mem_after {next : Option Lexeme} (h : q ∈ b.after rule l next) : ∃ n, next = some n ∧
    l.stop.line = n.start.line ∧ q.line = l.start.line ∧
    ((∃ max, b.max = some max ∧ max < (n.start.index : Int) - l.stop.index) ∨
      ∃ min, b.min = some min ∧ (n.start.index : Int) - l.stop.index < min) := by
  unfold after at h
  split at h
  next n =>
    split at h
    next hline => exact ⟨n, rfl, hline, mem_check h⟩
    · cases h
  · cases h

theorem mem_before {prev : Option Lexeme} (h : q ∈ b.before rule l prev) : ∃ p, prev = some p ∧
    p.stop.line = l.start.line ∧ q.line = l.start.line ∧
    ((∃ max, b.max = some max ∧ max < (l.start.index : Int) - p.stop.index) ∨
      ∃ min, b.min = some min ∧ (l.start.index : Int) - p.stop.index < min) := by
  unfold before at h
  split at h
  next p =>
    dsimp only at h
    split at h
    next hline => exact ⟨p, rfl, hline.1, mem_check h⟩
    · cases h
  · cases h

end Spacing

/-! Tokens on a line. -/

/-- A token and those beside it have their places. -/
theorem TokenStream.view_adjoins {text : List Char} {v : TokenView}
    (herror : (Yaml.Scan.ofList .document text).error = none)
    (hv : v ∈ views (Source.ofList text) ((Yaml.Scan.ofList .document text).tokens.map (·.token))) :
    (∀ l ∈ v.prev, ∃ g u next, Lexeme.Adjoins text g u next l v.curr) ∧
      (∀ n ∈ v.next, ∃ g u next, Lexeme.Adjoins text g u next v.curr n) ∧
      (v.prev = none → v.curr.kind = .streamStart) := by
  rw [views_eq] at hv
  obtain ⟨k, hk⟩ := List.mem_iff_getElem?.mp hv
  rw [viewsFrom_getElem?] at hk
  obtain ⟨l, hl, rfl⟩ := Option.map_eq_some_iff.mp hk
  have hbeside {j : Nat} {m n : Lexeme}
      (hm : (Lexeme.ofText (Source.ofList text) text)[j]? = some m)
      (hn : (Lexeme.ofText (Source.ofList text) text)[j + 1]? = some n) :
      ∃ g u next, Lexeme.Adjoins text g u next m n := by
    obtain ⟨hj, rfl⟩ := List.getElem?_eq_some_iff.mp hm
    obtain ⟨hj', rfl⟩ := List.getElem?_eq_some_iff.mp hn
    generalize hparts : Lexeme.ofText (Source.ofList text) text = ls at hj hj'
    have hsplit : ls = ls.take j ++ ls[j] :: ls[j + 1] :: ls.drop (j + 2) := by
      rw [List.getElem_cons_drop, List.getElem_cons_drop, List.take_append_drop]
    exact Lexeme.exists_adjoins herror (hparts.trans hsplit)
  refine ⟨fun p hp => ?_, fun n hn => hbeside hl hn, fun hnone => ?_⟩
  · cases k with
    | zero => cases hp
    | succ k => exact hbeside hp hl
  · cases k with
    | zero =>
      have hkinds := Lexeme.placeAll_kinds (Source.ofList text)
        ((Yaml.Scan.ofList .document text).tokens.map (·.token))
      have hhead := congrArg List.head? hkinds
      rw [List.head?_map, List.head?_map, Yaml.scan_head?, List.head?_eq_getElem?, hl] at hhead
      exact Option.some.inj hhead
    | succ k =>
      have hk := (List.getElem?_eq_some_iff.mp hl).1
      rw [if_neg (Nat.succ_ne_zero k), Nat.add_sub_cancel, List.getElem?_eq_none_iff] at hnone
      omega

theorem Yaml.TokenKind.sign_visible {k : TokenKind} {c : Char} (h : k.sign? = some c) :
    Yaml.isEnd c = false ∧ c ≠ '\n' := by
  cases k <;> first | (cases h; decide) | cases h

theorem lineAt_succ_of_ne {text : List Char} {i : Nat} (h : charAt text i ≠ '\n') :
    lineAt text (i + 1) = lineAt text i :=
  (lineAt_eq (Nat.le_succ i) fun k hk hki hfeed => h (by
    rw [show i = k by omega]
    exact Yaml.charAt_of_getElem? hfeed)).symm

theorem isSpace_visible {text : List Char} {i : Nat} (h : Yaml.isSpace (charAt text i) = true) :
    i < text.length ∧ charAt text i ≠ '\n' := by
  have hchar : charAt text i = ' ' ∨ charAt text i = '\t' :=
    (Bool.or_eq_true_iff.mp h).imp beq_iff_eq.mp beq_iff_eq.mp
  refine ⟨Yaml.lt_length_of_charAt ?_, ?_⟩ <;> rcases hchar with hchar | hchar <;> rw [hchar] <;>
    decide

namespace Lexeme.Adjoins

variable {text : List Char} {lines : FileLines} {g u : PlacedToken} {next : Option PlacedToken}
  {l n : Lexeme} {c : Char}

/-- The mark of a key that covers the first character of the key itself overlaps with it. -/
theorem key_overlaps (h : Adjoins text g u next l n) (hput : g.IsPut) (hkey : g.token.kind = .key)
    (hseen : l.start.index < l.stop.index) : n.start.index < l.stop.index := by
  have hsame := h.follows.same hput
  have hstart : g.token.kind ≠ .blockMappingStart := hkey ▸ TokenKind.noConfusion
  have hblock : g.token.kind.isBlockScalar = false := by rw [hkey]; rfl
  have hindex : l.start.index = g.first := by
    obtain ⟨after, rfl⟩ := h.left
    rw [made_start hstart, begin_start hblock]
    exact (h.fits.1.mark hstart hblock).1
  have hquestion : charAt text g.first = '?' := by
    obtain ⟨hmark, hstop⟩ := h.left_stop hstart hblock (by
      rw [(h.fits.1.mark hstart hblock).1, ← hsame]
      exact h.first_le)
    rw [← hmark] at hstop
    have hcovers : l.start.index < l.stopIndex (Source.ofList text) u.token.mark.index := by omega
    unfold stopIndex at hcovers
    rw [h.kinds.1.trans hkey] at hcovers
    dsimp only at hcovers
    split at hcovers
    next hchar => exact Yaml.charAt_of_getElem? (hindex ▸ List.getElem?_toArray.symm.trans hchar)
    · exact absurd hcovers (Nat.lt_irrefl _)
  have hu : u.token.kind.isBlockScalar = false := by
    refine Bool.of_not_eq_true fun hblock => ?_
    obtain ⟨-, -, -, hopens⟩ := h.fits.2.block hblock
    rw [hsame, hquestion] at hopens
    cases hopens
  obtain ⟨hn, -, -⟩ := h.right_start hu
  omega

section Behind

variable (h : Adjoins text g u next l n) (hord : OrdinaryText text)
  (hsign : g.token.kind.sign? = some c) (hput : ¬g.IsPut)

include h hsign hput

/-- The lexeme of a sign. -/
theorem sign_place : l.start.index = g.first ∧ l.start.line = lineAt text g.first ∧
    charAt text g.first = c ∧ g.upto = g.first + 1 ∧ l.stop.index = g.first + 1 := by
  obtain ⟨hchar, -, -⟩ := (h.fits.1.sign hsign).resolve_right fun hkey => hput hkey.2.1
  have hin := Yaml.lt_length_of_charAt (hchar ▸ (TokenKind.sign_visible hsign).1)
  obtain ⟨hstart, hchar, hupto, hstop⟩ := h.sign_stop hsign hput hin
  refine ⟨?_, ?_, hchar, hupto, hstop⟩
  · rw [hstart, Yaml.placeAt_index]
  · rw [hstart, Yaml.placeAt_line]

include hord

/-- Between a sign and the next token of its line there are spaces only. -/
theorem sign_spaces (hline : l.stop.line = n.start.line) : g.first + 1 ≤ n.start.index ∧
    (∀ j, g.first + 1 ≤ j → j < n.start.index → Yaml.isSpace (charAt text j) = true) ∧
    (n.start.index = g.first + 1 → charAt text (g.first + 1) ≠ ' ' ∧
      Yaml.Dialect.document.isBreak (charAt text (g.first + 1)) = false) := by
  obtain ⟨-, -, hchar, hupto, hstop⟩ := h.sign_place hsign hput
  rw [h.stop_line, hstop, ← hupto] at hline
  obtain ⟨hle, hspaces, hsolid⟩ := h.spaces_behind hord (hstop.trans hupto.symm) hline.symm
  rw [hupto] at hle hspaces hsolid
  exact ⟨hle, hspaces, hsolid⟩

/-- If there is too much space behind a sign, its line shows it. -/
theorem not_oneAfter (hsplit : lines.AreSplit) (htext : lines.flatten = text)
    (hline : l.stop.line = n.start.line) (hmany : l.stop.index + 1 < n.start.index) :
    ∃ line ∈ lines[l.start.line - 1]?, ¬OneAfter c line := by
  obtain ⟨-, hplace, hchar, -, hstop⟩ := h.sign_place hsign hput
  obtain ⟨-, hspaces, -⟩ := h.sign_spaces hord hsign hput hline
  have hone := hspaces (g.first + 1) le_rfl (by omega)
  have htwo := hspaces (g.first + 2) (by omega) (by omega)
  subst htext
  obtain ⟨line, hget, hpiece⟩ := hsplit.triple (isSpace_visible htwo).1 (by
    rw [lineAt_succ_of_ne (isSpace_visible hone).2,
      lineAt_succ_of_ne (hchar ▸ (TokenKind.sign_visible hsign).2)])
  rw [hchar] at hpiece
  exact ⟨line, hplace ▸ hget, fun hspace => hspace _ _ hone htwo hpiece⟩

/-- If there is no space behind a sign, its line shows what stands there. -/
theorem behind_sign (hsplit : lines.AreSplit) (htext : lines.flatten = text)
    (hline : l.stop.line = n.start.line) (hnone : n.start.index = l.stop.index) :
    ∃ line ∈ lines[l.start.line - 1]?, ∃ x, [c, x] <:+: line ∧ x ≠ ' ' ∧
      Yaml.Dialect.document.isBreak x = false := by
  obtain ⟨-, hplace, hchar, -, hstop⟩ := h.sign_place hsign hput
  obtain ⟨-, -, hsolid⟩ := h.sign_spaces hord hsign hput hline
  obtain ⟨hvisible, hfeed⟩ := TokenKind.sign_visible hsign
  have hin := Yaml.lt_length_of_charAt (hchar ▸ hvisible)
  have hnext : g.first + 1 < text.length := by
    refine Nat.lt_of_le_of_ne hin fun hlast => hfeed ?_
    rw [← hchar]
    refine Yaml.charAt_of_getElem? ?_
    rw [show g.first = text.length - 1 by omega]
    exact hord.last
  subst htext
  obtain ⟨line, hget, hpiece⟩ := hsplit.pair hnext (lineAt_succ_of_ne (hchar ▸ hfeed))
  rw [hchar] at hpiece
  exact ⟨line, hplace ▸ hget, _, hpiece, hsolid (by omega)⟩

end Behind

section Before

variable (h : Adjoins text g u next l n) (hord : OrdinaryText text)
  (htrailing : u.token.kind.isTrailing = true) (hsign : u.token.kind.sign? = some c)

include h htrailing hsign

/-- The lexeme of a sign that stands behind what it belongs to. -/
theorem trailing_place : n.start.index = u.first ∧ n.start.line = lineAt text u.first ∧
    charAt text u.first = c := by
  obtain ⟨hchar, -, hmark⟩ := h.fits.2.trailing htrailing
  have hne : u.token.kind ≠ .blockMappingStart := fun hkind => by
    rw [hkind] at htrailing
    cases htrailing
  have hblock : u.token.kind.isBlockScalar = false := by
    generalize u.token.kind = kind at htrailing
    cases kind <;> first | rfl | cases htrailing
  rw [h.right_of_ne hne, begin_start hblock, hmark, Yaml.placeAt_index, Yaml.placeAt_line]
  exact ⟨rfl, rfl, Option.some.inj (hchar.symm.trans hsign)⟩

include hord

/-- A sign behind white space: its line shows it, unless the sign stands first on it. -/
theorem not_tightBefore (hsplit : lines.AreSplit) (htext : lines.flatten = text)
    (hstop : l.stop.index < n.start.index) : ∃ line ∈ lines[n.start.line - 1]?,
      ¬TightBefore c line ∨ charAt text (u.first - 1) = '\n' ∧ line.head? = some c := by
  obtain ⟨hindex, hline, hchar⟩ := h.trailing_place htrailing hsign
  have hblank := h.blank_before htrailing hord (hindex ▸ hstop)
  have hin := Yaml.lt_length_of_charAt (hchar ▸ (TokenKind.sign_visible hsign).1)
  have hfirst : u.first - 1 + 1 = u.first := by omega
  subst htext
  by_cases hfeed : charAt lines.flatten (u.first - 1) = '\n'
  · obtain ⟨line, hget, hhead⟩ := hsplit.head (by omega) hfeed
    rw [hfirst] at hget hhead
    exact ⟨line, hline ▸ hget, Or.inr ⟨hfeed, hchar ▸ hhead⟩⟩
  · have hsame := lineAt_succ_of_ne hfeed
    rw [hfirst] at hsame
    obtain ⟨line, hget, hpiece⟩ := hsplit.pair (i := u.first - 1) (by omega) (by rw [hfirst, hsame])
    rw [hfirst, hchar] at hpiece
    exact ⟨line, by rwa [hline, hsame], Or.inl fun htight => htight _ hblank hpiece⟩

omit hord in
/-- A sign on the line of the lexeme before it is not the first one of its line. -/
theorem not_behind_feed (hline : l.stop.line = n.start.line)
    (hstop : l.stop.index < n.start.index) : charAt text (u.first - 1) ≠ '\n' := by
  obtain ⟨hindex, hplace, -⟩ := h.trailing_place htrailing hsign
  intro hfeed
  rw [h.stop_line, hplace] at hline
  have hlow := lineAt_mono text (show l.stop.index ≤ u.first - 1 by omega)
  have hhigh := lineAt_lt (j := u.first) (Yaml.getElem?_of_charAt hfeed (by decide)) (by omega)
  omega

/-- If there is too much space before a sign, its line shows it. -/
theorem not_oneBefore (hsplit : lines.AreSplit) (htext : lines.flatten = text)
    (hloose : g.token.kind.isLoose = false) (hline : l.stop.line = n.start.line)
    (hmany : l.stop.index + 1 < n.start.index) : ∃ line ∈ lines[n.start.line - 1]?,
      ¬OneBefore c line := by
  obtain ⟨hindex, hplace, hchar⟩ := h.trailing_place htrailing hsign
  have hin := Yaml.lt_length_of_charAt (hchar ▸ (TokenKind.sign_visible hsign).1)
  rw [h.stop_line, hplace] at hline
  have hsame {j : Nat} (hj : l.stop.index ≤ j) (hju : j < u.first) :
      lineAt text u.first = lineAt text j := by
    have hlow := lineAt_mono text hj
    have hhigh := lineAt_mono text (Nat.le_of_lt hju)
    omega
  have hblank {j : Nat} (hj : l.stop.index ≤ j) (hju : j < u.first) :
      Text.isBlank (charAt text j) = true :=
    h.blank_between htrailing hord hloose hj hju (hsame hj hju)
  have hfirst := hsame (j := u.first - 2) (by omega) (by omega)
  have hone := hblank (j := u.first - 2) (by omega) (by omega)
  have htwo := hblank (j := u.first - 2 + 1) (by omega) (by omega)
  subst htext
  have hback : u.first - 2 + 2 = u.first := by omega
  obtain ⟨line, hget, hpiece⟩ := hsplit.triple (i := u.first - 2) (by omega) (by rw [hback, hfirst])
  rw [hback, hchar] at hpiece
  exact ⟨line, by rwa [hplace, hfirst], fun hspace => hspace _ _ hone htwo hpiece⟩

end Before

end Lexeme.Adjoins

/-- The delimiters of a rule are signs, and its bounds are the usual ones. -/
structure Delimiters.Usual (d : Delimiters) (c : RuleSettings)
    (opening closing : Char) : Prop where
  opening : d.opening.sign? = some opening ∧ d.opening ≠ .key
  closing : d.closing.sign? = some closing ∧ d.closing.isTrailing = true
  bounds : ∀ empty, (d.spacing c empty).min = some 0 ∧ (d.spacing c empty).max = some 1

namespace Rules

variable {lines : FileLines} {v : TokenView} {q : Problem}

section Signs

variable (hsplit : lines.AreSplit) (hord : OrdinaryText lines.flatten)
  (herror : (Yaml.Scan.ofList .document lines.flatten).error = none)
  (hv : v ∈ TokenStream.views (Source.ofList lines.flatten)
    ((Yaml.Scan.ofList .document lines.flatten).tokens.map (·.token)))

include hsplit hord herror hv

/-- Too much space behind a sign, or none where there has to be some. -/
theorem after_untidy {b : Spacing} {rule : String} {c : Char} (hmax : b.max = some 1)
    (hmin : ∀ min ∈ b.min, min ≤ 1) (hsign : v.curr.kind.sign? = some c)
    (hread : v.curr.kind = .key → b.min = none ∧ v.curr.start.index < v.curr.stop.index)
    (hq : q ∈ b.after rule v.curr v.next) : ∃ line ∈ lines[q.line - 1]?, ¬OneAfter c line ∨
      b.min = some 1 ∧ ∃ x, [c, x] <:+: line ∧ x ≠ ' ' ∧
        Yaml.Dialect.document.isBreak x = false := by
  obtain ⟨n, hn, hline, hplace, hspaces⟩ := Spacing.mem_after hq
  obtain ⟨g, u, next, h⟩ := (TokenStream.view_adjoins herror hv).2.1 n hn
  rw [hplace]
  have hkind := h.kinds.1
  rw [hkind] at hsign hread
  by_cases hput : g.IsPut
  · -- Only the mark of a key is put, and no space can be behind it.
    have hkey : g.token.kind = .key := by
      have hbare := h.fits.1.isBare hput
      generalize g.token.kind = kind at hsign hbare
      cases kind <;> first | rfl | exact Bool.noConfusion hbare | cases hsign
    obtain ⟨hnone, hseen⟩ := hread hkey
    have hlt := h.key_overlaps hput hkey hseen
    rcases hspaces with ⟨max, hsome, hmany⟩ | ⟨min, hsome, -⟩
    · cases hmax.symm.trans hsome
      omega
    · cases hnone.symm.trans hsome
  obtain ⟨-, -, -, -, hstop⟩ := h.sign_place hsign hput
  obtain ⟨hle, -, -⟩ := h.sign_spaces hord hsign hput hline
  rcases hspaces with ⟨max, hsome, hlt⟩ | ⟨min, hsome, hlt⟩
  · cases hmax.symm.trans hsome
    obtain ⟨line, hget, hmany⟩ := h.not_oneAfter hord hsign hput hsplit rfl hline (by omega)
    exact ⟨line, hget, Or.inl hmany⟩
  · have hone : min = 1 := by
      have := hmin min hsome
      omega
    obtain ⟨line, hget, hnone⟩ := h.behind_sign hord hsign hput hsplit rfl hline (by omega)
    exact ⟨line, hget, Or.inr ⟨hone ▸ hsome, hnone⟩⟩

/-- Space before a sign. -/
theorem before_untidy {b : Spacing} {rule : String} {c : Char} (hmax : b.max = some 0)
    (hmin : b.min = none) (htrailing : v.curr.kind.isTrailing = true)
    (hsign : v.curr.kind.sign? = some c) (hq : q ∈ b.before rule v.curr v.prev) :
    ∃ line ∈ lines[q.line - 1]?, ¬TightBefore c line := by
  obtain ⟨l, hl, hline, hplace, hspaces⟩ := Spacing.mem_before hq
  obtain ⟨g, u, next, h⟩ := (TokenStream.view_adjoins herror hv).1 l hl
  rw [h.kinds.2] at htrailing hsign
  rcases hspaces with ⟨max, hsome, hlt⟩ | ⟨min, hsome, -⟩
  · cases hmax.symm.trans hsome
    have hstop : l.stop.index < v.curr.start.index := by omega
    obtain ⟨line, hget, htight⟩ := h.not_tightBefore hord htrailing hsign hsplit rfl hstop
    rw [hplace]
    exact ⟨line, hget, htight.resolve_right fun hfeed =>
      h.not_behind_feed htrailing hsign hline hstop hfeed.1⟩
  · cases hmin.symm.trans hsome

theorem colonProblems_untidy (hq : q ∈ colonProblems colons.defaults v) :
    ∃ line ∈ lines[q.line - 1]?, ¬TidyColons line := by
  unfold colonProblems at hq
  split at hq
  next hkind =>
    split at hq
    · cases hq
    · rcases List.mem_append.mp hq with hq | hq
      · obtain ⟨line, hget, htight⟩ := before_untidy hsplit hord herror hv (c := ':') rfl rfl
          (by rw [hkind]; rfl) (by rw [hkind]; rfl) hq
        exact ⟨line, hget, fun htidy => htight htidy.before⟩
      · obtain ⟨line, hget, hmany | ⟨hmin, -⟩⟩ := after_untidy hsplit hord herror hv (c := ':') rfl
          (fun _ hmin => (Option.not_mem_none _ hmin).elim) (by rw [hkind]; rfl) (by rw [hkind]; nofun) hq
        · exact ⟨line, hget, fun htidy => hmany htidy.after⟩
        · cases hmin
  next hkind =>
    split at hq
    next hseen =>
      obtain ⟨line, hget, hmany | ⟨hmin, -⟩⟩ := after_untidy hsplit hord herror hv (c := '?') rfl
        (fun _ hmin => (Option.not_mem_none _ hmin).elim) (by rw [hkind]; rfl) (fun _ => ⟨rfl, hseen⟩) hq
      · exact ⟨line, hget, fun htidy => hmany htidy.question⟩
      · cases hmin
    · cases hq
  · cases hq

theorem commaProblems_untidy (hq : q ∈ commaProblems commas.defaults v) :
    ∃ line ∈ lines[q.line - 1]?, ¬TidyCommas line := by
  unfold commaProblems at hq
  split at hq
  next hkind =>
    have htrailing : v.curr.kind.isTrailing = true := by rw [hkind]; rfl
    have hsign : v.curr.kind.sign? = some ',' := by rw [hkind]; rfl
    rcases List.mem_append.mp hq with hq | hq
    · unfold beforeComma at hq
      dsimp only at hq
      split at hq
      next hlater =>
        rw [List.mem_singleton.mp hq]
        obtain ⟨l, hl, hlt⟩ := (Option.any_eq_true ..).mp hlater.2
        obtain ⟨g, u, next, h⟩ := (TokenStream.view_adjoins herror hv).1 l hl
        rw [h.kinds.2] at htrailing hsign
        obtain ⟨hindex, hplace, -⟩ := h.trailing_place htrailing hsign
        have hstop : l.stop.index < v.curr.start.index := by
          by_contra hge
          have hmono := lineAt_mono lines.flatten (Nat.not_lt.mp hge)
          have hlt := of_decide_eq_true hlt
          rw [h.stop_line, hplace, ← hindex] at hlt
          omega
        obtain ⟨line, hget, hline⟩ := h.not_tightBefore hord htrailing hsign hsplit rfl hstop
        refine ⟨line, hget, fun htidy => ?_⟩
        rcases hline with htight | ⟨-, hhead⟩
        · exact htight htidy.before
        · exact htidy.first hhead
      · obtain ⟨line, hget, htight⟩ :=
          before_untidy hsplit hord herror hv rfl rfl htrailing hsign hq
        exact ⟨line, hget, fun htidy => htight htidy.before⟩
    · obtain ⟨line, hget, hline⟩ := after_untidy hsplit hord herror hv rfl
        (fun min hmin => (Option.some.inj hmin).symm.le) hsign (by rw [hkind]; nofun) hq
      refine ⟨line, hget, fun htidy => ?_⟩
      rcases hline with hmany | ⟨-, x, hpiece, hspace, hbreak⟩
      · exact hmany htidy.after
      · rcases htidy.apart x hpiece with rfl | hend
        · exact hspace rfl
        · rcases Bool.or_eq_true_iff.mp hend with hx | hx <;> rw [beq_iff_eq.mp hx] at hbreak <;>
            cases hbreak
  · cases hq

theorem delimiterProblems_untidy {d : Delimiters} {c : RuleSettings} {opening closing : Char}
    (hd : d.Usual c opening closing)
    (hloose : v.curr.kind = d.closing → ∀ k ∈ v.prevKind, k.isLoose = false)
    (hq : q ∈ d.problems c v) :
    ∃ line ∈ lines[q.line - 1]?, ¬TidyInside opening closing line := by
  unfold Delimiters.problems at hq
  split at hq
  next hkind =>
    obtain ⟨hmin, hmax⟩ := hd.bounds (v.nextKind == some d.closing)
    obtain ⟨line, hget, hmany | ⟨hone, -⟩⟩ := after_untidy hsplit hord herror hv hmax
      (fun min hmem => by cases hmin.symm.trans hmem; decide) (hkind ▸ hd.opening.1)
      (fun hkey => absurd (hkind.symm.trans hkey) hd.opening.2) hq
    · exact ⟨line, hget, fun htidy => hmany htidy.after⟩
    · cases hmin.symm.trans hone
  · split at hq
    next hkind =>
      obtain ⟨l, hl, hline, hplace, hspaces⟩ := Spacing.mem_before hq
      obtain ⟨g, u, next, h⟩ := (TokenStream.view_adjoins herror hv).1 l hl
      obtain ⟨hmin, hmax⟩ := hd.bounds false
      have hsign : v.curr.kind.sign? = some closing := hkind.1 ▸ hd.closing.1
      have htrailing : v.curr.kind.isTrailing = true := hkind.1 ▸ hd.closing.2
      have hseen : g.token.kind.isLoose = false := by
        rw [← h.kinds.1]
        exact hloose hkind.1 _ (Option.mem_map_of_mem _ hl)
      rw [h.kinds.2] at hsign htrailing
      rw [hplace]
      rcases hspaces with ⟨max, hsome, hlt⟩ | ⟨min, hsome, hlt⟩
      · cases hmax.symm.trans hsome
        obtain ⟨line, hget, hmany⟩ :=
          h.not_oneBefore hord htrailing hsign hsplit rfl hseen hline (by omega)
        exact ⟨line, hget, fun htidy => hmany htidy.before⟩
      · cases hmin.symm.trans hsome
        obtain ⟨hstop, -⟩ := h.upto_blank htrailing hord hseen
        obtain ⟨hindex, -⟩ := h.trailing_place htrailing hsign
        omega
    · cases hq

theorem bracketProblems_untidy
    (hloose : v.curr.kind = .flowSequenceEnd → ∀ k ∈ v.prevKind, k.isLoose = false)
    (hq : q ∈ Delimiters.brackets.problems brackets.defaults v) :
    ∃ line ∈ lines[q.line - 1]?, ¬TidyInside '[' ']' line :=
  delimiterProblems_untidy hsplit hord herror hv
    ⟨⟨rfl, TokenKind.noConfusion⟩, ⟨rfl, rfl⟩, fun empty => by cases empty <;> exact ⟨rfl, rfl⟩⟩
    hloose hq

theorem braceProblems_untidy
    (hloose : v.curr.kind = .flowMappingEnd → ∀ k ∈ v.prevKind, k.isLoose = false)
    (hq : q ∈ Delimiters.braces.problems braces.defaults v) :
    ∃ line ∈ lines[q.line - 1]?, ¬TidyInside '\x7b' '\x7d' line :=
  delimiterProblems_untidy hsplit hord herror hv
    ⟨⟨rfl, TokenKind.noConfusion⟩, ⟨rfl, rfl⟩, fun empty => by cases empty <;> exact ⟨rfl, rfl⟩⟩
    hloose hq

end Signs

end Rules

end Blueprint
