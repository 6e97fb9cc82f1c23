import Blueprint.Proofs.CommentOrder
import Blueprint.Proofs.Readings

/-!
The tokens of a document and their lexemes, one for each token: where a lexeme starts and how far it
reaches, given the token, the lexeme before it and the token after it. Comments lie between lexemes.
-/

namespace Blueprint

namespace Yaml

theorem Scanner.next?_ofList (text : List Char) : ∃ s, (Scanner.ofList text).next? .document =
    .ok (some (⟨.streamStart, ⟨0, 1, 0⟩⟩, s)) :=
  ⟨_, rfl⟩

/-- The first token is the start of the stream. -/
theorem scan_head? (text : List Char) :
    ((Scan.ofList .document text).tokens.map (·.token)).head? =
      some ⟨.streamStart, ⟨0, 1, 0⟩⟩ := by
  obtain ⟨s, hs⟩ := Scanner.next?_ofList text
  rw [Scan.ofList, Scan.fromScanner, hs]
  rfl

end Yaml

namespace Lexeme

open Yaml (Token)

/-- The lexeme of a token behind one that stops at `after`. -/
def made (source : Source) (after : Nat) (t : Token) (next : Option Token) : Lexeme :=
  let l := begin source t after
  ((next.map l.anchored).getD l).finish source ((next.map (·.mark.index)).getD source.size)

/-- The lexemes of tokens, the first one behind `after`. -/
def madeFrom (source : Source) : Nat → List Token → List Lexeme
  | _, [] => []
  | after, t :: r =>
    made source after t r.head? :: madeFrom source (made source after t r.head?).stop.index r

variable {source : Source} {text : List Char} {after i : Nat} {t u : Token} {next : Option Token}
  {ts pre post : List Token} {l : Lexeme}

theorem placeFrom_eq_madeFrom :
    placeFrom source (begin source t after) ts = madeFrom source after (t :: ts) := by
  induction ts generalizing t after with
  | nil => rfl
  | cons u r ih =>
    rw [madeFrom, ← ih]
    rfl

/-- No lexeme is placed at the indicator of the first token, as it is the start of the stream. -/
theorem ofText_eq_madeFrom : ofText source text =
    madeFrom source 0 ((Yaml.Scan.ofList .document text).tokens.map (·.token)) := by
  have hhead := Yaml.scan_head? text
  unfold ofText
  cases hts : (Yaml.Scan.ofList .document text).tokens.map (·.token) with
  | nil => rfl
  | cons t r =>
    rw [hts] at hhead
    cases hhead
    exact @placeFrom_eq_madeFrom source 0 ⟨.streamStart, ⟨0, 1, 0⟩⟩ r

theorem madeFrom_append : ∃ ls after', madeFrom source after (pre ++ ts) =
    ls ++ madeFrom source after' ts := by
  induction pre generalizing after with
  | nil => exact ⟨[], after, rfl⟩
  | cons t r ih =>
    obtain ⟨ls, after', heq⟩ := @ih (made source after t (r ++ ts).head?).stop.index
    exact ⟨_ :: ls, after', by rw [List.cons_append, madeFrom, heq]; rfl⟩

/-- Each lexeme is made of a token among its neighbours, and so are those after it. -/
theorem eq_of_madeFrom {ls back : List Lexeme} (h : madeFrom source after ts = ls ++ l :: back) :
    ∃ pre t post after', ts = pre ++ t :: post ∧ l = made source after' t post.head? ∧
      back = madeFrom source l.stop.index post := by
  induction ls generalizing after ts with
  | nil =>
    cases ts with
    | nil => cases h
    | cons t r =>
      obtain ⟨hl, hback⟩ := List.cons.inj h
      exact ⟨[], t, r, after, rfl, hl.symm, hl ▸ hback.symm⟩
  | cons m ls ih =>
    cases ts with
    | nil => cases h
    | cons t r =>
      obtain ⟨pre, u, post, after', hr, hl, hback⟩ := ih (List.cons.inj h).2
      exact ⟨t :: pre, u, post, after', by rw [hr]; rfl, hl, hback⟩

theorem made_kind : (made source after t next).kind = t.kind := by
  show ((next.map (begin source t after).anchored).getD (begin source t after)).kind = t.kind
  cases next with
  | none => exact begin_kind
  | some u => exact (anchored_kind _ u).trans begin_kind

theorem begin_start (h : t.kind.isBlockScalar = false) : (begin source t after).start = t.mark := by
  unfold begin
  dsimp only
  split
  next hkind =>
    rw [hkind] at h
    cases h
  next hkind =>
    rw [hkind] at h
    cases h
  · rfl

theorem begin_start_le : (begin (Source.ofList text) t after).start.index ≤ t.mark.index := by
  have hmoved (l : Lexeme) :
      (l.atIndicator (Source.ofList text) after).start.index ≤ l.start.index := by
    unfold atIndicator
    dsimp only
    split
    next hlt =>
      rw [(Source.markAt_ofList text _).1]
      exact (Nat.min_le_left _ _).trans (Nat.le_of_lt hlt)
    · exact le_rfl
  unfold begin
  dsimp only
  split
  · exact hmoved _
  · exact hmoved _
  · exact le_rfl

/-- A block scalar that is placed at its indicator stays behind the lexeme before it. -/
theorem le_begin_start (hi : i ≤ text.length) (hafter : i ≤ after) (ht : i ≤ t.mark.index) :
    i ≤ (begin (Source.ofList text) t after).start.index := by
  have hmoved (l : Lexeme) (hl : i ≤ l.start.index) :
      i ≤ (l.atIndicator (Source.ofList text) after).start.index := by
    unfold atIndicator
    dsimp only
    split
    · rw [(Source.markAt_ofList text _).1]
      exact Nat.le_min.mpr ⟨hafter.trans (Nat.le_add_right_of_le (Nat.le_max_left _ _)), hi⟩
    · exact hl
  unfold begin
  dsimp only
  split
  · exact hmoved _ ht
  · exact hmoved _ ht
  · exact ht

/-- The start of a block mapping without a token of its own stands at the key. -/
theorem made_start_of_key (ht : t.kind = .blockMappingStart) (hu : u.kind = .key) :
    (made source after t (some u)).start = u.mark := by
  show ((begin source t after).anchored u).start = u.mark
  rw [anchored, if_pos ⟨begin_kind.trans ht, hu⟩]

/-- Only the start of a block mapping depends on the token after it. -/
theorem made_eq_finish (ht : t.kind ≠ .blockMappingStart) : made source after t next =
    (begin source t after).finish source ((next.map (·.mark.index)).getD source.size) := by
  cases next with
  | none => rfl
  | some u =>
    show ((begin source t after).anchored u).finish source _ = _
    rw [anchored, if_neg fun h => ht (begin_kind.symm.trans h.1)]

theorem made_start (ht : t.kind ≠ .blockMappingStart) :
    (made source after t next).start = (begin source t after).start := by
  rw [made_eq_finish ht]
  rfl

theorem made_start_cases : (made source after t next).start = (begin source t after).start ∨
    t.kind = .blockMappingStart ∧ ∃ u, next = some u ∧
      (made source after t next).start = u.mark := by
  cases next with
  | none => exact Or.inl rfl
  | some u =>
    by_cases h : t.kind = .blockMappingStart ∧ u.kind = .key
    · exact Or.inr ⟨h.1, u, rfl, made_start_of_key h.1 h.2⟩
    · left
      show ((begin source t after).anchored u).start = _
      rw [anchored, if_neg fun h' => h ⟨begin_kind.symm.trans h'.1, h'.2⟩]

theorem le_made_start (hi : i ≤ text.length) (hafter : i ≤ after) (ht : i ≤ t.mark.index)
    (hnext : ∀ u ∈ next, i ≤ u.mark.index) :
    i ≤ (made (Source.ofList text) after t next).start.index := by
  rcases @made_start_cases (Source.ofList text) after t next with h | ⟨_, u, hu, h⟩
  · rw [h]
    exact le_begin_start hi hafter ht
  · rw [h]
    exact hnext u hu

/-- A lexeme reaches beyond an index behind its start when its stop is beyond it. -/
theorem lt_finish_stop {limit : Nat} (hi : i < text.length) (hl : l.start.index ≤ i) :
    i < (l.finish (Source.ofList text) limit).stop.index ↔
      i < l.stopIndex (Source.ofList text) limit := by
  show i < ((Source.ofList text).markAt _).index ↔ _
  rw [(Source.markAt_ofList text _).1, Source.size_ofList]
  omega

theorem le_finish_stop {limit : Nat} (hi : i ≤ text.length) (hl : i ≤ l.start.index) :
    i ≤ (l.finish (Source.ofList text) limit).stop.index := by
  show i ≤ ((Source.ofList text).markAt _).index
  rw [(Source.markAt_ofList text _).1]
  omega

theorem le_made_stop (hi : i ≤ text.length)
    (h : i ≤ (made (Source.ofList text) after t next).start.index) :
    i ≤ (made (Source.ofList text) after t next).stop.index :=
  le_finish_stop hi h

/-- Behind an index there are the lexemes of the tokens behind it. -/
theorem le_of_mem_madeFrom (hi : i ≤ text.length) (hafter : i ≤ after)
    (hts : ∀ t ∈ ts, i ≤ t.mark.index) (hl : l ∈ madeFrom (Source.ofList text) after ts) :
    i ≤ l.start.index ∧ i ≤ l.stop.index := by
  induction ts generalizing after with
  | nil => cases hl
  | cons t r ih =>
    have hstart : i ≤ (made (Source.ofList text) after t r.head?).start.index :=
      le_made_start hi hafter (hts t List.mem_cons_self) fun u hu =>
        hts u (List.mem_cons_of_mem t (List.mem_of_mem_head? hu))
    have hstop := le_made_stop hi hstart
    rw [madeFrom] at hl
    rcases List.mem_cons.mp hl with rfl | hl
    · exact ⟨hstart, hstop⟩
    · exact ih hstop (fun u hu => hts u (List.mem_cons_of_mem t hu)) hl

/-- A lexeme does not start behind its own token. -/
theorem made_start_le_mark (hleads : (t :: ts).IsChain Token.Leads) :
    (made (Source.ofList text) after t ts.head?).start.index ≤ t.mark.index := by
  rcases @made_start_cases (Source.ofList text) after t ts.head? with h | ⟨hstart, u, hu, h⟩
  · rw [h]
    exact begin_start_le
  · rw [h]
    exact ((List.isChain_cons.mp hleads).1 u hu hstart).2.1

/-- A lexeme does not start behind a token that follows its own. -/
theorem made_start_le (hsorted : (t :: ts).Pairwise Token.MayPrecede)
    (hleads : (t :: ts).IsChain Token.Leads) (hu : u ∈ ts) :
    (made (Source.ofList text) after t ts.head?).start.index ≤ u.mark.index := by
  cases ts with
  | nil => cases hu
  | cons v r =>
    obtain ⟨hhead, hsorted⟩ := List.pairwise_cons.mp hsorted
    by_cases hstart : t.kind = .blockMappingStart
    · obtain ⟨hkind, _, hv⟩ := (List.isChain_cons_cons.mp hleads).1 hstart
      have hvu : v.mark.index ≤ u.mark.index := by
        rcases List.mem_cons.mp hu with rfl | hu
        · exact le_rfl
        · exact ((List.pairwise_cons.mp hsorted).1 u hu).2.resolve_left hkind
      refine Nat.le_trans ?_ hvu
      rcases hv with hv | hv
      · exact Nat.le_of_eq (congrArg (·.index) (made_start_of_key hstart hv))
      · exact hv ▸ made_start_le_mark hleads
    · exact (made_start_le_mark hleads).trans ((hhead u hu).2.resolve_left hstart)

/-- Lexemes start in the order of the text. -/
theorem madeFrom_order (hsorted : ts.Pairwise Token.MayPrecede)
    (hleads : ts.IsChain Token.Leads) :
    (madeFrom (Source.ofList text) after ts).Pairwise fun l l' =>
      min l.start.index text.length ≤ l'.start.index := by
  induction ts generalizing after with
  | nil => exact .nil
  | cons t r ih =>
    rw [madeFrom]
    refine List.pairwise_cons.mpr ⟨?_, ih (List.pairwise_cons.mp hsorted).2 hleads.of_cons⟩
    intro l hl
    refine (le_of_mem_madeFrom (Nat.min_le_right _ _) (le_made_stop (Nat.min_le_right _ _)
      (Nat.min_le_left _ _)) ?_ hl).1
    intro u hu
    exact (Nat.min_le_left _ _).trans (made_start_le hsorted hleads hu)

end Lexeme

end Blueprint
