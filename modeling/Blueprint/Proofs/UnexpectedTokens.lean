import Blueprint.Proofs.IndentationReading
import Blueprint.Proofs.SectionTracker

/-!
When the indentation check expects every token of a text: its stack is led by the steps of the
parser, as long as the parser does not come to one of a few places where the check goes another way.
-/

namespace Blueprint

open Yaml (TokenKind Expect Parser Scan)

namespace Indentation

/-- Whether the check takes the tokens that the parser reads here for something else: a colon in
front of which the key is missing, one that stands for a key, a bracket that is read as a missing key,
and the last entry of a list without a content or with nothing but an anchor or a tag. -/
def confuses : Expect → List TokenKind → Bool
  | .blockMappingKey _, .value :: _ => true
  | .flowMappingKey true, .value :: _ => true
  | .flowMappingKey false, .flowEntry :: .value :: _ => true
  | .flowPairKey, .flowSequenceEnd :: _ => true
  | .flowPairKey, .value :: .value :: _ => true
  | .indentlessSequence, .blockEntry :: r =>
    (r.dropWhile (·.isProperty)).head?.any Parser.endsBlockPart
  | _, _ => false

/-- The parser comes to the end of the tokens, and never to a place that confuses the check. -/
def isClear : Nat → Parser → Bool
  | 0, _ => false
  | fuel + 1, p =>
    match p.expect with
    | .nothing => p.tokens.isEmpty
    | x =>
      !confuses x p.left &&
        match p.step .document with
        | .ok (_, p') => isClear fuel p'
        | .error _ => false

/-- All documents of a text can be read, and none of them confuses the check. -/
def suits (scan : Scan) : Bool :=
  scan.error.isNone &&
    match (Parser.ofScan scan).open? with
    | .ok p => isClear (Yaml.Event.eventLimit scan) p
    | .error _ => false

variable {frames : List Frame} {x y : Expect} {s stack stack' : List Expect}
  {lead ks r left left' : List TokenKind} {p : Parser}

/-! Nodes that are missing, and ends of collections. -/

theorem Part.separate {x : Bool → Expect} (hx : x = .flowSequence ∨ x = .flowMappingKey)
    {first : Bool} (h : Part (x first) s (Parser.comma first ++ r).head? frames) :
    Reads frames (Parser.comma first) r (Part (x false) s r.head?) := by
  have hcounts (next : Option TokenKind) : ¬CountsOnKey (x false) next := by
    rcases hx with rfl | rfl <;> exact id
  have hxy : Alike (x first) (x false) := by rcases hx with rfl | rfl <;> exact ⟨rfl, rfl, rfl⟩
  cases first with
  | true => exact .nil (h.congr hxy fun hc => absurd hc (hcounts _))
  | false => exact h.comma hxy fun hc => absurd hc (hcounts _)

/-- What the first token of a node, or of a list without a start, is not. -/
structure Starts (y : Expect) (next : Option TokenKind) : Prop where
  keeps : next.any endsKey = false
  list : next = some .blockEntry → y.takesLists = true

theorem Starts.entry (h : Starts y r.head?) (hy : y.takesLists = false) :
    r.head? ≠ some .blockEntry ∧ r.head? ≠ some .blockEnd := by
  refine ⟨fun heq => ?_, fun heq => ?_⟩
  · rw [h.list heq] at hy
    cases hy
  · have hkeeps := h.keeps
    rw [heq] at hkeeps
    cases hkeeps

/-- The tokens before a node of a collection. -/
theorem reads_of_leads (h : x.Leads lead y) (hrests : Rests (x :: s) (lead ++ r).head? frames)
    (hstarts : Starts y r.head?) : Reads frames lead r (Inner (y :: s)) := by
  have hslack {y : Expect} (hy : isPart y = true) (habove : Above y = Slack)
      {frames : List Frame} {ks : List TokenKind} (h : Reads frames ks r (Part y s r.head?)) :
      Reads frames ks r (Inner (y :: s)) :=
    h.mono fun _ h => h.inner (.refl hy) (Or.inl habove)
  have hmarked {y : Expect} (hy : isPart y = true)
      (habove : Above y = Marked ∧ CountsOnKey y r.head?)
      {frames : List Frame} {ks : List TokenKind} (h : Reads frames ks r (Part y s r.head?)) :
      Reads frames ks r (Inner (y :: s)) :=
    h.mono fun _ h => h.inner (.refl hy) (Or.inr habove)
  cases h with
  | entry =>
    obtain ⟨f, below, rfl, hf, hinner⟩ := hrests.of_sequence (Or.inl rfl)
    exact .entry (Or.inl rfl) (hf.congr rfl rfl) Expect.noConfusion hinner (hstarts.entry rfl)
  | item =>
    obtain ⟨hlist, ⟨f, below, rfl, hf, hinner⟩ | hinner⟩ := hrests.of_list
    · exact .entry (Or.inr rfl) hf (fun _ => hlist) hinner (hstarts.entry rfl)
    · exact .firstEntry hinner hlist (hstarts.entry rfl)
  | key =>
    have hpart := hrests.of_part rfl Bool.noConfusion
    exact hmarked (y := .blockMappingValue) rfl ⟨rfl, hstarts.keeps⟩ (hpart.key ⟨rfl, rfl, rfl⟩)
  | value =>
    have hpart := hrests.of_part rfl Bool.noConfusion
    exact hslack rfl rfl (hpart.value rfl ⟨rfl, rfl, rfl⟩ id)
  | element => exact hslack rfl rfl (Part.separate (Or.inl rfl) (hrests.of_part rfl id))
  | pairKey =>
    have hpart := hrests.of_part rfl id
    exact .nil (hpart.inner ⟨rfl, rfl, rfl⟩ (Or.inr ⟨rfl, hstarts.keeps⟩))
  | pairValue => exact hslack rfl rfl ((hrests.of_part rfl id).value rfl ⟨rfl, rfl, rfl⟩ id)
  | flowKey =>
    rw [List.append_assoc] at hrests
    refine .append (Part.separate (Or.inr rfl) (hrests.of_part rfl id)) fun fs h => ?_
    exact hmarked (y := .flowMappingValue false) rfl ⟨rfl, hstarts.keeps⟩
      (Part.key h ⟨rfl, rfl, rfl⟩)
  | bareKey =>
    exact (Part.separate (Or.inr rfl) (hrests.of_part rfl id)).mono fun _ h =>
      h.inner ⟨rfl, rfl, rfl⟩ (Or.inl rfl)
  | flowValue => exact hslack rfl rfl ((hrests.of_part rfl id).value rfl ⟨rfl, rfl, rfl⟩ id)

theorem Reads.part (h : Reads frames ks r (Part x s r.head?)) (hx : isPart x = true) :
    Reads frames ks r (Rests (x :: s) r.head?) :=
  h.mono fun _ => .part hx

/-- An entry of a list that does not confuse the check is not the last one, if it has no content. -/
theorem goes_on_of_clear (ks : List TokenKind)
    (hclear : confuses .indentlessSequence (.blockEntry :: (ks ++ r)) = false)
    (hks : ∀ k ∈ ks, k.isProperty = true) : r.head?.any Parser.endsBlockPart = false := by
  have hclear : ((ks ++ r).dropWhile (·.isProperty)).head?.any Parser.endsBlockPart = false :=
    hclear
  rw [List.dropWhile_append_of_pos hks] at hclear
  cases r with
  | nil => rfl
  | cons k r =>
    cases hk : k.isProperty with
    | true => cases k <;> first | rfl | cases hk
    | false =>
      rwa [List.dropWhile_cons_of_neg (by rw [hk]; exact Bool.false_ne_true)] at hclear

/-- The tokens that are read where a node is missing. -/
theorem reads_of_misses (h : Expect.Misses r.head? x lead y)
    (hrests : Rests (x :: s) (lead ++ r).head? frames) (hclear : confuses x (lead ++ r) = false) :
    Reads frames lead r (Rests (y :: s) r.head?) := by
  -- Without a token the parser goes on in its collection, where it does not count on a key.
  have hgo {x y : Expect} (hrests : Rests (x :: s) r.head? frames) (hxy : Alike x y)
      (hx : isPart x = true) (hcounts : ¬CountsOnKey y r.head?)
      (hstuck : Stuck x r.head? → Stuck y r.head?) :
      Reads frames [] r (Rests (y :: s) r.head?) := by
    rcases hrests.part_or_stuck hx with hpart | ⟨hx, below, hinner⟩
    · exact .nil (.part hxy.part (hpart.congr hxy fun hc => absurd hc hcounts))
    · exact .nil (.stuck (hstuck hx) hinner)
  have hvalue {x : Expect} (lead : List TokenKind) (hnext : r.head? = some .value)
      (hx : ∀ r, confuses x (lead ++ .value :: r) = true)
      (hclear : confuses x (lead ++ r) = false) : False := by
    obtain ⟨r, rfl⟩ := List.head?_eq_some_iff.mp hnext
    rw [hx] at hclear
    cases hclear
  cases h with
  | entry hnext =>
    obtain ⟨f, below, rfl, hf, hinner⟩ := hrests.of_sequence (Or.inl rfl)
    refine .emptyEntry (List.cons_ne_nil _ _) hnext fun t ht => ?_
    refine ⟨_, Inner.stays _ Yaml.Enclosure.noConfusion hf (Or.inr (ht.curr ▸ rfl)), ?_⟩
    exact .sequence (hf.congr rfl rfl) hinner
  | item hnext =>
    have hentry : r.head? = some .blockEntry := by
      refine hnext.resolve_right fun hends => ?_
      have hgoes : r.head?.any Parser.endsBlockPart = false :=
        goes_on_of_clear [] hclear fun _ hk => nomatch hk
      rw [hends] at hgoes
      cases hgoes
    obtain ⟨hlist, ⟨f, below, rfl, hf, hinner⟩ | hinner⟩ := hrests.of_list
    · refine .emptyEntry (List.cons_ne_nil _ _) (Or.inl hentry) fun t ht => ?_
      refine ⟨_, Inner.stays _ Yaml.Enclosure.noConfusion hf (Or.inr (ht.curr ▸ rfl)), ?_⟩
      rw [hentry]
      exact .list hf hlist hinner
    · refine .emptyEntry hinner.ne_nil (Or.inl hentry) fun t ht => ?_
      have hnext : t.nextKind = some .blockEntry := ht.nextKind.trans hentry
      obtain ⟨fs, hclose, hfs⟩ := hinner.keeps (t := t) (Or.inr hlist) (by rw [ht.curr]; rfl)
        (by rw [hnext]; rfl) fun _ => hlist
      rw [hentry]
      exact ⟨fs, hclose, .fresh hlist hfs⟩
  | key => exact .part ((hrests.of_part rfl Bool.noConfusion).key ⟨rfl, rfl, rfl⟩) rfl
  | unmarkedKey hnext => exact (hvalue [] hnext (fun _ => rfl) hclear).elim
  | value =>
    exact .part ((hrests.of_part rfl Bool.noConfusion).value rfl ⟨rfl, rfl, rfl⟩ id) rfl
  | unmarkedValue => exact hgo hrests ⟨rfl, rfl, rfl⟩ rfl id id
  | pair =>
    rw [List.append_assoc] at hrests
    refine .append (Part.separate (Or.inl rfl) (hrests.of_part rfl id)) fun fs h => ?_
    exact .part (Part.key h ⟨rfl, rfl, rfl⟩) rfl
  | pairKey hk =>
    have hpart := hrests.of_part rfl id
    rcases hk with rfl | rfl | rfl
    · refine .part (Part.value hpart rfl ⟨rfl, rfl, rfl⟩ fun hnext => ?_) rfl
      exact hvalue [.value] hnext (fun _ => rfl) hclear
    · exact .part (Part.comma hpart ⟨rfl, rfl, rfl⟩ fun _ => rfl) rfl
    · cases hclear
  | pairValue => exact .part ((hrests.of_part rfl id).value rfl ⟨rfl, rfl, rfl⟩ id) rfl
  | unmarkedPairValue => exact hgo hrests ⟨rfl, rfl, rfl⟩ rfl id id
  | pairEnd => exact hgo hrests ⟨rfl, rfl, rfl⟩ rfl id id
  | flowKey =>
    rw [List.append_assoc] at hrests
    refine .append (Part.separate (Or.inr rfl) (hrests.of_part rfl id)) fun fs h => ?_
    exact .part (Part.key h ⟨rfl, rfl, rfl⟩) rfl
  | @unmarkedFlowKey first hnext =>
    cases first with
    | true => exact (hvalue [] hnext (fun _ => rfl) hclear).elim
    | false => exact (hvalue [.flowEntry] hnext (fun _ => rfl) hclear).elim
  | flowValue => exact .part ((hrests.of_part rfl id).value rfl ⟨rfl, rfl, rfl⟩ id) rfl
  | unmarkedFlowValue => exact hgo hrests ⟨rfl, rfl, rfl⟩ rfl id id

/-- The tokens at the end of a collection, or of a list that has none. -/
theorem reads_of_ends (h : Expect.Ends r.head? x lead)
    (hrests : Rests (x :: s) (lead ++ r).head? frames) :
    Reads frames lead r (Rests s r.head?) := by
  have hclose {x : Expect} {k : TokenKind} {frames : List Frame} (hx : x.closer? = some k)
      (h : Part x s (some k) frames) : Reads frames [k] r (Rests s r.head?) := by
    obtain ⟨-, hspent, -, hf, hinner⟩ := h
    exact .close (hspent (closer_spec hx).2.1) hf hx hinner
  cases h with
  | root =>
    obtain ⟨f, hf, rfl⟩ := hrests.of_document rfl
    obtain rfl := hrests.of_content (Or.inl rfl)
    exact .nil (.root hf)
  | list hnext => exact .nil (hrests.of_ended hnext)
  | @block x hx =>
    cases x with
    | blockSequence =>
      obtain ⟨f, below, rfl, hf, hinner⟩ := hrests.of_sequence (Or.inr rfl)
      exact @Reads.close [] _ _ _ _ _ _ .nil hf hx hinner
    | blockMappingKey | blockMappingValue => exact hclose hx (hrests.of_part rfl Bool.noConfusion)
    | _ => cases hx
  | @flow x lead k hx hlead =>
    have hpart : isPart x = true ∧ ∀ next, ¬Stuck x next := by
      cases x <;> first | exact absurd rfl hx.2 | exact ⟨rfl, fun _ => id⟩ | cases hx.1
    have hends := (closer_spec hx.1).2.1
    rw [List.append_assoc] at hrests
    have hrests := hrests.of_part hpart.1 (hpart.2 _)
    rcases hlead with rfl | ⟨first, rfl⟩
    · exact hclose hx.1 hrests
    · cases first with
      | true => exact hclose hx.1 hrests
      | false =>
        refine .append (Part.comma hrests (.refl hpart.1) fun hcounts => ?_)
          fun fs h => hclose hx.1 h
        have hkeeps : endsKey k = false := hcounts.keeps
        rw [hends] at hkeeps
        cases hkeeps

theorem reads_of_outside (h : Expect.Outside stack stack') (hrests : Rests stack left.head? frames)
    (hks : ∀ k ∈ ks, k.isOutside = true ∨ k = .streamEnd) :
    Reads frames ks r (Rests stack' r.head?) := by
  have hopens : ∀ k ∈ ks, opensNothing k = true := fun k hk => by
    rcases hks k hk with hk | rfl
    · cases k <;> first | rfl | cases hk
    · rfl
  obtain ⟨f, hf, rfl⟩ : ∃ f, f.kind = .root ∧ frames = [f] := by
    cases h <;> exact hrests.of_document rfl
  refine (Reads.outside hf hopens).mono ?_
  rintro _ rfl
  cases h with
  | content hx => exact .content hx hf
  | nothing | next => exact .outside rfl ⟨Expect.noConfusion, Expect.noConfusion⟩ hf

theorem Starts.of_properties (hks : ∀ k ∈ ks, k.isProperty = true) (h : Starts y r.head?) :
    Starts y (ks ++ r).head? := by
  cases ks with
  | nil => exact h
  | cons k ks =>
    obtain ⟨-, -, hends, hentry⟩ := property_spec (hks k List.mem_cons_self)
    exact ⟨hends, fun heq => absurd (Option.some.inj heq) hentry⟩

theorem Starts.of_begins {event : Yaml.EventKind} {opened : List Expect}
    (h : Yaml.Begins ks event opened)
    (hlist : ∀ z ∈ opened, z.closer? = none → y.takesLists = true ∧ r.head? = some .blockEntry) :
    Starts y (ks ++ r).head? := by
  have hcontent {ps : List TokenKind} {anchor : Option String} {tag : Option Yaml.Tag}
      {k : TokenKind} (hps : Yaml.Properties ps anchor tag)
      (hk : endsKey k = false ∧ k ≠ .blockEntry) : Starts y (ps ++ [k] ++ r).head? := by
    rw [List.append_assoc]
    exact .of_properties hps.kinds ⟨hk.1, fun heq => absurd (Option.some.inj heq) hk.2⟩
  cases h with
  | «alias» name => exact ⟨rfl, fun heq => TokenKind.noConfusion (Option.some.inj heq)⟩
  | scalar hps => exact hcontent hps ⟨rfl, TokenKind.noConfusion⟩
  | @empty ps _ _ hps hne =>
    obtain ⟨k, ps, rfl⟩ := List.exists_cons_of_ne_nil hne
    obtain ⟨-, -, hends, hentry⟩ := property_spec (hps.kinds k List.mem_cons_self)
    exact ⟨hends, fun heq => absurd (Option.some.inj heq) hentry⟩
  | sequence hps hz =>
    cases hz with
    | block | brackets => exact hcontent hps ⟨rfl, TokenKind.noConfusion⟩
    | list =>
      obtain ⟨htakes, hnext⟩ := hlist _ List.mem_cons_self rfl
      rw [List.append_nil]
      exact .of_properties hps.kinds ⟨by rw [hnext]; rfl, fun _ => htakes⟩
  | mapping hps flow => cases flow <;> exact hcontent hps ⟨rfl, TokenKind.noConfusion⟩

/-- What the parser reads in one step is what the check expects. -/
theorem reads_of_effect (h : Parser.Effect stack left stack' left')
    (hrests : Rests stack left.head? frames)
    (hclear : ∀ x ∈ stack.head?, confuses x left = false)
    (hclear' : ∀ x ∈ stack'.head?, confuses x left' = false) :
    ∃ ks, left = ks ++ left' ∧ Reads frames ks left' (Rests stack' left'.head?) := by
  have hmapping {opened s : List Expect} {r : List TokenKind}
      (hclear : ∀ x ∈ (opened ++ s).head?, confuses x r = false)
      (hopened : opened.head? = some (.blockMappingKey true)) : r.head? ≠ some .value := by
    intro hvalue
    obtain ⟨r, rfl⟩ := List.head?_eq_some_iff.mp hvalue
    rw [List.head?_append, hopened] at hclear
    cases hclear _ rfl
  cases h with
  | outside h hks => exact ⟨_, rfl, reads_of_outside h hrests hks⟩
  | root hx hbegins hlist =>
    obtain ⟨f, hf, rfl⟩ := hrests.of_document (by rcases hx with rfl | rfl <;> rfl)
    obtain rfl := hrests.of_content hx
    refine ⟨_, rfl, Reads.node (.root hf) hbegins (fun z hz hnone => ?_) (hmapping hclear')
      fun heq => by cases heq⟩
    have hsome := hlist z hz
    rw [hnone] at hsome
    cases hsome
  | @node x y s opened lead ks r event hlead hbegins hlist =>
    refine ⟨lead ++ ks, (List.append_assoc _ _ _).symm, .append
      (reads_of_leads hlead hrests (.of_begins hbegins hlist)) fun fs hfs => ?_⟩
    refine Reads.node hfs hbegins (fun z hz hnone => ?_) (hmapping hclear') fun heq hks => ?_
    · obtain ⟨htakes, hnext⟩ := hlist z hz hnone
      exact ⟨⟨y, s, rfl, htakes, hlead.resumes⟩, hnext⟩
    · obtain rfl := Option.some.inj heq
      cases hlead with
      | item => exact goes_on_of_clear _ (hclear _ rfl) hks
  | missing h => exact ⟨_, rfl, reads_of_misses h hrests (hclear _ rfl)⟩
  | leave h => exact ⟨_, rfl, reads_of_ends h hrests⟩

/-! The whole stream. -/

theorem not_confuses_of_isClear {fuel : Nat} (h : isClear fuel p = true) :
    confuses p.expect p.left = false := by
  cases fuel with
  | zero => cases h
  | succ fuel =>
    unfold isClear at h
    split at h
    next hp =>
      rw [hp]
      rfl
    · rw [Bool.and_eq_true, Bool.not_eq_true'] at h
      exact h.1

/-- The frames at the end of the stream. -/
theorem reads_of_isClear {fuel : Nat} (h : isClear fuel p = true)
    (hrests : Rests p.stack p.left.head? frames) :
    Reads frames p.left [] (fun fs => ∃ f, f.kind = .root ∧ fs = [f]) := by
  -- The induction is on the steps of the parser, each of which keeps `Rests`.
  induction fuel generalizing p frames with
  | zero => cases h
  | succ fuel ih =>
    have hclear : ∀ x ∈ p.stack.head?, confuses x p.left = false := by
      rintro _ ⟨⟩
      exact not_confuses_of_isClear h
    unfold isClear at h
    split at h
    next hp =>
      have hleft : p.left = [] := by
        rw [Parser.left_of_not_fresh (by rw [hp]; rfl), Parser.kinds, List.isEmpty_iff.mp h]
        rfl
      rw [hleft]
      exact .nil (hrests.of_document (by rw [hp]; rfl))
    next hp =>
      have hwaits : Expect.Waits p.stack := hrests.waits fun heq => hp (Option.some.inj heq)
      obtain ⟨-, h⟩ := Bool.and_eq_true_iff.mp h
      split at h
      next e p' hstep =>
        have hclear' : ∀ x ∈ p'.stack.head?, confuses x p'.left = false := by
          rintro _ ⟨⟩
          exact not_confuses_of_isClear h
        obtain ⟨ks, hks, hreads⟩ :=
          reads_of_effect (Parser.step_effect hwaits hstep) hrests hclear hclear'
        rw [hks]
        refine .append (by rwa [List.append_nil]) fun fs hfs => ih h hfs
      · cases h

theorem Verdict.message?_ne {v : Verdict} (h : v ≠ .unexpected) :
    ∀ m ∈ v.message?, m ≠ "cannot infer indentation: unexpected token" := by
  intro m hm
  cases v with
  | fits => cases hm
  | misplaced expected found =>
    have hfirst : m.toList.head? = some 'w' := by
      unfold message? at hm
      dsimp only at hm
      split at hm <;> cases hm <;> simp only [String.toList_append, List.head?_append] <;> rfl
    rintro rfl
    exact absurd hfirst (by decide)
  | unexpected => exact absurd rfl h

end Indentation

namespace Rules

open Indentation (Accepts Reads suits closeFrames_root check_of_enter)

variable {c : RuleSettings} {s : Session} {t : TokenView} {ts : List TokenView}

/-- The rule finds a place for every token, and behind the last one its stack is as it was at
first. -/
structure Follows (c : RuleSettings) (s : Session) (ts : List TokenView) : Prop where
  expected : ∀ n, ∀ t ∈ ts[n]?, ∀ p ∈ (checkIndentation c t (afterTokens c (ts.take n) s)).1,
    p.message ≠ "cannot infer indentation: unexpected token"
  closed : (afterTokens c ts s).indentation.frames.map (·.kind) = [.root]

theorem Follows.nil (h : s.indentation.frames.map (·.kind) = [.root]) : Follows c s [] :=
  ⟨(fun _ _ ht => nomatch ht), h⟩

theorem Follows.cons (ht : ∀ p ∈ (checkIndentation c t s).1,
    p.message ≠ "cannot infer indentation: unexpected token")
    (h : Follows c (checkIndentation c t s).2 ts) : Follows c s (t :: ts) := by
  refine ⟨fun n t' ht' => ?_, h.closed⟩
  cases n with
  | zero =>
    cases ht'
    exact ht
  | succ n => exact h.expected n t' ht'

theorem checkIndentation_expected {v : Indentation.Verdict} {s' : Indentation}
    (h : (indentationBefore c t s).check t = (v, s')) (hv : v ≠ .unexpected) :
    (∀ p ∈ (checkIndentation c t s).1, p.message ≠ "cannot infer indentation: unexpected token") ∧
      (checkIndentation c t s).2.indentation = s' := by
  unfold indentationBefore at h
  unfold checkIndentation
  dsimp only
  rw [h]
  refine ⟨fun p hp => ?_, rfl⟩
  obtain ⟨m, hm, rfl⟩ := Option.map_eq_some_iff.mp (Option.mem_toList.mp hp)
  exact Indentation.Verdict.message?_ne hv m hm

theorem follows_of_accepts {source : Source} {ls : List Lexeme} {prev : Lexeme}
    {path : List (Container × Mark)} {s' : Indentation}
    (h : Accepts [] s.indentation prev path ls s') (hs' : s'.frames.map (·.kind) = [.root]) :
    Follows c s ((Element.ofLexemes source (some prev) path ls).filterMap Element.view?) := by
  induction ls generalizing s prev path with
  | nil =>
    cases h
    exact .nil hs'
  | cons l r ih =>
    rw [Element.views_cons]
    obtain ⟨hkind, v, s₁, hcheck, hv, h⟩ := h
    rw [List.append_nil] at hcheck
    have hframes : s.indentation.frames ≠ [] := by
      intro hnil
      unfold Indentation.check Indentation.top? at hcheck
      rw [hnil] at hcheck
      cases hcheck
      exact hv rfl
    have hbefore : indentationBefore c ⟨l, some prev, r.head?, r[1]?, path⟩ s = s.indentation :=
      if_neg (not_or.mpr ⟨hkind, hframes⟩)
    obtain ⟨hp, hs₁⟩ := checkIndentation_expected (hbefore ▸ hcheck) hv
    exact .cons hp (ih (hs₁ ▸ h))

/-- The start of a stream leaves the root on the stack. -/
theorem check_streamStart (c : RuleSettings) (s : Session) (ht : t.curr.kind = .streamStart) :
    ∃ v s₁ root, (indentationBefore c t s).check t = (v, s₁) ∧ v ≠ .unexpected ∧
      root.kind = .root ∧ s₁.frames = [root] := by
  let root : Frame := ⟨.root, 0, none, false, false⟩
  let s₁ := ((freshIndentation c).place root t.curr).2
  have hfresh : indentationBefore c t s = freshIndentation c := if_pos (Or.inl ht)
  have henter : s₁.enter t = some s₁ := by
    unfold Indentation.enter
    rw [ht]
  have hclose : Indentation.closeFrames t false false s₁.frames = ([root], true) := by
    rw [Indentation.place_frames]
    exact closeFrames_root rfl
  rw [hfresh]
  exact ⟨_, _, root, check_of_enter rfl rfl henter hclose, Indentation.place_verdict _ _ _, rfl,
    rfl⟩

/-- In every text that suits it the rule follows all tokens, whatever its settings are. -/
theorem indentation_follows (c : RuleSettings) (s : Session) (text : String)
    (h : suits (Yaml.Scan.ofList .document text.toList) = true) :
    Follows c s (Element.views text) := by
  unfold suits at h
  obtain ⟨herror, h⟩ := Bool.and_eq_true_iff.mp h
  split at h
  next p hopen =>
    have hkinds := Lexeme.ofText_kinds (Source.ofText text) text.toList
    rw [Parser.open_reads hopen] at hkinds
    have hstreams :=
      Lexeme.ofText_streams (Source.ofText text) (Option.isNone_iff_eq_none.mp herror)
    obtain ⟨first, r, hls, hfirst, hr⟩ := List.map_eq_cons_iff.mp hkinds
    rw [hls] at hstreams
    have hready := Parser.open_ready hopen
    have hleft : p.left = p.kinds := Parser.left_of_not_fresh (by rw [hready.expect]; rfl)
    have hstack : p.stack = [.document true] := by
      rw [Parser.stack, hready.expect, hready.pending]
    have hviews := Element.views_eq text
    unfold Element.lexical at hviews
    rw [hls, Element.views_cons] at hviews
    rw [hviews]
    obtain ⟨v, s₁, root, hcheck, hv, hroot, hs₁⟩ :=
      check_streamStart (t := ⟨first, none, r.head?, r[1]?, []⟩) c s hfirst
    obtain ⟨hp, hafter⟩ := checkIndentation_expected hcheck hv
    have hrests : Indentation.Rests p.stack p.left.head? [root] := by
      rw [hstack]
      exact .outside rfl ⟨Expect.noConfusion, Expect.noConfusion⟩ hroot
    obtain ⟨s', haccepts, f, hf, hs'⟩ := Indentation.reads_of_isClear h hrests r []
      (hr.trans hleft.symm) rfl (by rw [List.append_nil]; exact hstreams.of_cons) s₁ first
      (Element.pathAfter [] first) hs₁
    refine .cons hp (follows_of_accepts (hafter ▸ haccepts) ?_)
    rw [hs', List.map_singleton, hf]
  · cases h

/-- Lists at the column of their key, a list as a key, a pair in brackets, and values with an anchor
or a tag in front. -/
theorem indentation_follows_of_nested :
    let text := "a: &x\n- b\n- c: {d: [e, ? f : g], h}\n  i: !t\n? - j\n  -\n: |\n  k\n"
    suits (Yaml.Scan.ofList .document text.toList) = true ∧
      Follows Rules.indentation.defaults {} (Element.views text) := by
  intro text
  have hsuits : suits (Yaml.Scan.ofList .document text.toList) = true := by decide +kernel
  exact ⟨hsuits, indentation_follows _ _ _ hsuits⟩

/-- A mapping whose first key is missing can be read, but the rule has no place for its start. -/
theorem indentation_loses_missing_key :
    (Node.compose (Source.ofText ": a\n") ": a\n".toList).toOption.join.isSome = true ∧
      ¬Follows Rules.indentation.defaults {} (Element.views ": a\n") := by
  let c := Rules.indentation.defaults
  let ts := Element.views ": a\n"
  have hstart : (ts[1]?.any fun t => (checkIndentation c t (afterTokens c (ts.take 1) {})).1.any
      (·.message == "cannot infer indentation: unexpected token")) = true := by
    decide +kernel
  refine ⟨by decide +kernel, fun h => ?_⟩
  obtain ⟨t, ht, hreports⟩ := (Option.any_eq_true _ _).mp hstart
  obtain ⟨p, hp, hmessage⟩ := List.any_eq_true.mp hreports
  exact h.expected 1 t ht p hp (eq_of_beq hmessage)

end Rules

end Blueprint
