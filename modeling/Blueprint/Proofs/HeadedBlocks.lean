import Blueprint.Proofs.HeldRun
import Blueprint.Proofs.LexemeRanges

/-!
What follows the start of a block. A block sequence starts at the mark of its first entry. A block
mapping is followed by the mark of its first key, or by a colon if that key is missing.
-/

namespace Blueprint

namespace Yaml

def TokenKind.isBlockStart : TokenKind → Bool
  | .blockSequenceStart | .blockMappingStart => true
  | _ => false

/-- What the token behind the start of a block is. -/
structure Token.Heads (t u : Token) : Prop where
  sequence : t.kind = .blockSequenceStart → u.kind = .blockEntry ∧ u.mark = t.mark
  mapping : t.kind = .blockMappingStart → u.kind = .key ∨ u.kind = .value

theorem Token.Heads.of_plain {t u : Token} (h : t.kind.isBlockStart = false) : t.Heads u := by
  refine ⟨fun hkind => ?_, fun hkind => ?_⟩ <;> rw [hkind] at h <;> cases h

theorem Opening.heads {start kind : TokenKind} (h : Opening start kind) (m : Mark) :
    (⟨start, m⟩ : Token).Heads ⟨kind, m⟩ := by
  cases h with
  | list => exact ⟨fun _ => ⟨rfl, rfl⟩, fun hkind => nomatch hkind⟩
  | key => exact ⟨(fun hkind => nomatch hkind), fun _ => Or.inl rfl⟩
  | value => exact ⟨(fun hkind => nomatch hkind), fun _ => Or.inr rfl⟩

/-- A token with a text of its own starts no block. -/
theorem Spells.isBlockStart {text : List Char} {a b : Nat} {t : Token} (h : Spells text a t b) :
    t.kind.isBlockStart = false := by
  cases h with
  | plain _ | quoted _ _ | block _ _ _ => rfl
  | @documentMark kind hkind _ => cases kind <;> first | rfl | cases hkind
  | @word kind _ hkind _ _ => cases kind <;> first | rfl | cases hkind
  | @directive kind _ hkind _ _ => cases kind <;> first | rfl | cases hkind

/-- Each start of a block among the tokens that wait is followed by what it heads. No key that may
still be recognized is put in between. -/
structure Headed (ts : List Token) (ks : List SimpleKey) : Prop where
  chain : ts.IsChain Token.Heads
  last : ∀ t ∈ ts.getLast?, t.kind.isBlockStart = false
  apart : ∀ k ∈ ks, ∀ t ∈ (ts.take k.token).getLast?, t.kind.isBlockStart = false

namespace Headed

variable {ts ts' new starts : List Token} {ks ks' : List SimpleKey} {m : Mark} {t : Token}

theorem append (h : Headed ts ks) (hcounted : ∀ k ∈ ks, k.token ≤ ts.length)
    (hchain : new.IsChain Token.Heads) (hlast : ∀ t ∈ new.getLast?, t.kind.isBlockStart = false)
    (hkeys : ∀ k ∈ ks', k ∈ ks ∨ k.token = ts.length) : Headed (ts ++ new) ks' where
  chain := List.isChain_append.mpr ⟨h.chain, hchain, fun t ht _ _ => .of_plain (h.last t ht)⟩
  last t ht := by
    rw [List.getLast?_append] at ht
    rcases Option.or_eq_some_iff.mp ht with ht | ⟨_, ht⟩
    · exact hlast t ht
    · exact h.last t ht
  apart k hk t ht := by
    rcases hkeys k hk with hk | hnumber
    · rw [List.take_append_of_le_length (hcounted k hk)] at ht
      exact h.apart k hk t ht
    · rw [hnumber, List.take_left] at ht
      exact h.last t ht

/-- Tokens that start no block. -/
theorem append_plain (h : Headed ts ks) (hcounted : ∀ k ∈ ks, k.token ≤ ts.length)
    (hnew : ∀ t ∈ new, t.kind.isBlockStart = false)
    (hkeys : ∀ k ∈ ks', k ∈ ks ∨ k.token = ts.length) : Headed (ts ++ new) ks' :=
  h.append hcounted (List.pairwise_of_forall_mem_list fun t ht _ _ => .of_plain (hnew t ht)).isChain
    (fun t ht => hnew t (List.mem_of_mem_getLast? ht)) hkeys

/-- A key that is recognized is put in at its place, with the block that it opens before it. -/
theorem insert {k : SimpleKey} (h : Headed ts ks) (hk : k ∈ ks) (hcounted : k.token ≤ ts.length)
    (hstarts : starts = [] ∨ starts = [⟨.blockMappingStart, m⟩])
    (hks : ∀ j ∈ ks', j ∈ ks ∧ j.token ≤ k.token) :
    Headed (ts.take k.token ++ (starts ++ ⟨.key, k.mark⟩ :: ts.drop k.token)) ks' where
  chain := by
    have hkey : (⟨.key, k.mark⟩ :: ts.drop k.token).IsChain Token.Heads :=
      List.isChain_cons.mpr ⟨fun _ _ => .of_plain rfl, h.chain.drop _⟩
    refine List.isChain_append.mpr
      ⟨h.chain.take _, ?_, fun t ht _ _ => .of_plain (h.apart k hk t ht)⟩
    rcases hstarts with rfl | rfl
    · exact hkey
    · exact List.isChain_cons_cons.mpr ⟨⟨(fun hkind => nomatch hkind), fun _ => Or.inl rfl⟩, hkey⟩
  last t ht := by
    rw [List.getLast?_append, List.getLast?_append, List.getLast?_cons, List.getLast?_drop] at ht
    split at ht
    · cases ht
      rfl
    · cases hlast : ts.getLast? with
      | none =>
        rw [hlast] at ht
        cases ht
        rfl
      | some u =>
        rw [hlast] at ht
        cases ht
        exact h.last u hlast
  apart j hj t ht := by
    obtain ⟨hjks, hle⟩ := hks j hj
    rw [List.take_append_of_le_length (by rw [List.length_take]; omega), List.take_take,
      Nat.min_eq_left hle] at ht
    exact h.apart j hjks t ht

theorem adds (h : Headed ts ks) (hcounted : ∀ k ∈ ks, k.token ≤ ts.length)
    (hnested : ks.Pairwise fun k outer => outer.token ≤ k.token)
    (ht : t.kind.isBlockStart = false) (hadds : Adds ts ks m t ts' ks') : Headed ts' ks' := by
  have hone : ∀ u ∈ [t], u.kind.isBlockStart = false := by
    intro u hu
    rwa [List.mem_singleton.mp hu]
  cases hadds with
  | push hks => exact h.append_plain hcounted hone fun k hk => Or.inl (hks.subset hk)
  | opens hopening hks =>
    refine h.append hcounted (List.isChain_pair.mpr (hopening.heads m)) ?_
      fun k hk => Or.inl (hks.subset hk)
    intro u hu
    cases hu
    exact ht
  | save hnumber _ hks =>
    refine h.append_plain hcounted hone fun k hk => ?_
    rcases List.mem_cons.mp hk with rfl | hk
    · exact Or.inr hnumber
    · exact Or.inl (hks.subset hk)
  | @recognize k r _ starts hk hstarts hks =>
    have hmem : k ∈ ks := hk.subset List.mem_cons_self
    have hinner : ∀ j ∈ ks', j ∈ ks ∧ j.token ≤ k.token := fun j hj =>
      ⟨hk.subset (List.mem_cons_of_mem _ (hks.subset hj)),
        (List.pairwise_cons.mp (hnested.sublist hk)).1 j (hks.subset hj)⟩
    refine (h.insert hmem (hcounted k hmem) hstarts hinner).append_plain ?_ hone
      fun j hj => Or.inl hj
    intro j hj
    have hlong := hcounted k hmem
    have hle := (hinner j hj).2
    rw [List.length_append, List.length_take]
    omega

variable {text : List Char} {rs : List Reading} {n : Nat} {s s' : Scanner}

theorem fetch (h : Headed s.queue s.openKeys) (hlive : s.Live text rs n)
    (hs : s.fetch .document = .ok s') : Headed s'.queue s'.openKeys := by
  have hends {u : Token} (hu : u.kind = .blockEnd) : u.kind.isBlockStart = false := by
    rw [hu]
    rfl
  obtain ⟨a, -, ⟨-, t, b, hsteps⟩ | ⟨-, hstop⟩⟩ :=
    Scanner.fetch_steps hlive.started hlive.here hlive.size hlive.taken hlive.counted hs
  · obtain ⟨ends, hmarks, hadds⟩ := hsteps.adds
    have hclosed : Headed (s.queue ++ ends) s.openKeys :=
      h.append_plain hlive.counted (fun u hu => hends (by rw [hmarks u hu])) fun k hk => Or.inl hk
    refine hclosed.adds ?_ (hlive.inOrder.tokens.nested.imp And.left) hsteps.spells.isBlockStart
      hadds
    intro k hk
    rw [List.length_append]
    exact (hlive.counted k hk).trans (Nat.le_add_right _ _)
  · obtain ⟨ends, hqueue, hkind⟩ := hstop.queue
    rw [hqueue, List.append_assoc]
    refine h.append_plain hlive.counted (fun u hu => ?_) fun k hk => Or.inl (hstop.keys.subset hk)
    rcases List.mem_append.mp hu with hu | hu
    · exact hends (hkind u hu).1
    · rw [List.mem_singleton.mp hu]
      rfl

theorem reads (hreads : s.Reads ts) (hlive : s.Live text rs n) (h : Headed s.queue s.openKeys) :
    ts.IsChain Token.Heads := by
  induction hreads generalizing n rs with
  | ended hqueue hend _ =>
    obtain ⟨pre, m, hts⟩ := hend
    have hmem : (⟨.streamEnd, m⟩ : Token) ∈ _ := hqueue.trans hts ▸ List.mem_concat_self
    exact absurd rfl (hlive.unended _ hmem)
  | step _ hf hrest ih =>
    obtain ⟨t, hlast, ⟨-, -, -, hnext⟩ | ⟨hkind, -⟩⟩ := hlive.fetch hf
    · exact ih hnext (h.fetch hlive hf)
    · cases hrest with
      | ended hqueue _ _ => exact hqueue ▸ (h.fetch hlive hf).chain
      | step hopen _ _ => exact absurd hkind (hopen t (List.mem_of_mem_getLast? hlast))

end Headed

theorem Scanner.Reads.ends {s : Scanner} {ts : List Token} (h : s.Reads ts) :
    ∃ pre m, ts = pre ++ [⟨.streamEnd, m⟩] := by
  induction h with
  | ended _ hend _ => exact hend
  | step _ _ _ ih => exact ih

/-- In a text without a fault, the starts of blocks are followed by what they head, and the stream
ends with its last token. -/
theorem scan_heads {text : List Char} (herror : (Scan.ofList .document text).error = none) :
    ((Scan.ofList .document text).tokens.map (·.token)).IsChain Token.Heads ∧
      ∃ pre m, (Scan.ofList .document text).tokens.map (·.token) = pre ++ [⟨.streamEnd, m⟩] := by
  obtain ⟨s, hf, hlast, hlive⟩ := Scanner.Live.ofList text
  have hreads := scan_iff_reads.mpr ⟨herror, rfl⟩
  refine ⟨?_, hreads.ends⟩
  cases hreads with
  | ended hqueue hend _ =>
    obtain ⟨pre, m, hts⟩ := hend
    rw [← hqueue] at hts
    exact absurd (congrArg List.length hts) (by simp [Scanner.ofList])
  | step _ hf' hrest =>
    rw [hf'] at hf
    cases hf
    cases hf'
    refine Headed.reads hrest hlive ⟨List.isChain_singleton _, ?_, fun _ hk => nomatch hk⟩
    intro t ht
    cases ht
    rfl

end Yaml

namespace Lexeme

open Yaml (Token)

variable {source : Source} {after : Nat} {ts : List Token} {l n : Lexeme} {r : List Lexeme}

/-- What the token behind the start of a block is, on the line where the block starts. -/
structure Heads (l n : Lexeme) : Prop where
  sequence : l.kind = .blockSequenceStart → n.kind = .blockEntry ∧ n.start.line = l.start.line
  mapping : l.kind = .blockMappingStart →
    n.kind = .key ∧ n.start.line = l.start.line ∨ n.kind = .value

/-- The last tokens of a stream: each but the end of the stream is followed by another one. -/
structure Streams (ls : List Lexeme) : Prop where
  heads : ls.IsChain Heads
  last : ∀ l ∈ ls.getLast?, l.kind = .streamEnd

theorem Streams.of_cons (h : Streams (l :: r)) : Streams r := by
  refine ⟨h.heads.of_cons, fun m hm => h.last m ?_⟩
  rw [List.getLast?_cons, hm]
  rfl

theorem Streams.of_append {ls : List Lexeme} (h : Streams (ls ++ r)) : Streams r := by
  induction ls with
  | nil => exact h
  | cons l ls ih => exact ih h.of_cons

/-- What comes behind a token in a stream. -/
theorem Streams.next (h : Streams (l :: r)) (hkind : l.kind ≠ .streamEnd) :
    ∃ n r', r = n :: r' ∧ l.Heads n := by
  cases r with
  | nil => exact absurd (h.last l rfl) hkind
  | cons n r => exact ⟨n, r, rfl, (List.isChain_cons_cons.mp h.heads).1⟩

theorem made_heads {t u : Token} {next : Option Token} {after' : Nat} (h : t.Heads u) :
    (made source after t (some u)).Heads (made source after' u next) := by
  refine ⟨fun hkind => ?_, fun hkind => ?_⟩
  · rw [made_kind] at hkind
    obtain ⟨hentry, hmark⟩ := h.sequence hkind
    refine ⟨made_kind.trans hentry, ?_⟩
    rw [made_start (by rw [hentry]; exact Yaml.TokenKind.noConfusion),
      made_start (by rw [hkind]; exact Yaml.TokenKind.noConfusion),
      begin_start (by rw [hentry]; rfl), begin_start (by rw [hkind]; rfl), hmark]
  · rw [made_kind] at hkind
    refine (h.mapping hkind).imp (fun hkey => ⟨made_kind.trans hkey, ?_⟩) made_kind.trans
    rw [made_start_of_key hkind hkey,
      made_start (by rw [hkey]; exact Yaml.TokenKind.noConfusion), begin_start (by rw [hkey]; rfl)]

theorem madeFrom_heads (h : ts.IsChain Token.Heads) :
    (madeFrom source after ts).IsChain Heads := by
  induction ts generalizing after with
  | nil => exact .nil
  | cons t ts ih =>
    rw [madeFrom]
    cases ts with
    | nil => exact List.isChain_singleton _
    | cons u ts =>
      obtain ⟨hheads, htail⟩ := List.isChain_cons_cons.mp h
      exact List.isChain_cons_cons.mpr ⟨made_heads hheads, ih htail⟩

theorem madeFrom_kinds : (madeFrom source after ts).map (·.kind) = ts.map (·.kind) := by
  induction ts generalizing after with
  | nil => rfl
  | cons t ts ih => rw [madeFrom, List.map_cons, List.map_cons, made_kind, ih]

/-- The lexemes of a text without a fault are a stream. -/
theorem ofText_streams {text : List Char} (source : Source)
    (herror : (Yaml.Scan.ofList .document text).error = none) : Streams (ofText source text) := by
  obtain ⟨hchain, pre, m, hlast⟩ := Yaml.scan_heads herror
  rw [ofText_eq_madeFrom]
  refine ⟨madeFrom_heads hchain, fun l hl => ?_⟩
  have hkinds := @madeFrom_kinds source 0 ((Yaml.Scan.ofList .document text).tokens.map (·.token))
  have hend := congrArg List.getLast? hkinds
  rw [List.getLast?_map, hl, hlast, List.map_append, List.getLast?_append] at hend
  exact Option.some.inj hend

end Lexeme

end Blueprint
