import ScopeTags.Proofs.LineReading
import ScopeTags.Proofs.LookingAhead

/-!
# Reading up to a string

Two texts that are the same up to a quote `q` and go on with `u` and `u'` after it are read alike,
as long as no step goes past the quote.  The second reader is the first one facing another text
(`Reader.facing`).  `Reader.Agree` compares one step of the two: unless the first reader goes into
`q :: u`, the second brings up the same events and is again the first one facing the other text.

What follows the quote is looked at before it is reached, but only in the ways that `Lookalike`
lists.

## Key results

- `Reader.step?_agree`: one step in front of the quote
- `Reader.advance_facing`: all steps up to the quote
-/

namespace ScopeTags.Source

/-- Two texts after a quote `q` look alike from all of the text `before` it. -/
structure Lookalike (before : List Char) (q : Char) (u u' : List Char) : Prop where
  isQuote : isQuote q = true
  starts : u.head?.any (fun d => Text.isAlphanumeric d || d = '_') = true
  starts' : u'.head?.any (fun d => Text.isAlphanumeric d || d = '_') = true
  closes_eq : ∀ c, Source.isQuote c = true → Heredoc.closes c u' = Heredoc.closes c u
  closed : Heredoc.closes q u = true
  startsBody_eq : inParameters before = true → ∀ d, 0 < d →
    startsBody (dropParentheses d (q :: u')) = startsBody (dropParentheses d (q :: u))

/-! ## Lines and literals -/

/-- The cursor with another text ahead of it. -/
def Cursor.facing (k : Cursor) (cs : List Char) : Cursor := { k with rest := cs }

section Cursors

variable {q : Char} {x u u' : List Char}

/-- Unless the first cursor is left past the quote, the second is the same facing the other
    text. -/
def CursorAgree (x : List Char) (q : Char) (u u' : List Char) (a a' : Cursor × List Event) : Prop :=
  u.length < a.1.rest.length →
    a'.2 = a.2 ∧ ∃ y, y <:+ x ∧ a.1.rest = y ++ q :: u ∧ a'.1 = a.1.facing (y ++ q :: u')

/-- What agrees on a later part of the text in front of the quote agrees on all of it. -/
theorem CursorAgree.mono {y : List Char} {a a' : Cursor × List Event}
    (h : CursorAgree y q u u' a a') (hy : y <:+ x) : CursorAgree x q u u' a a' := by
  intro hlen
  obtain ⟨hevents, z, hz, hrest, hfacing⟩ := h hlen
  exact ⟨hevents, z, hz.trans hy, hrest, hfacing⟩

/-- A literal that closes in front of the quote closes at the same character. -/
private theorem skipFrames_agree (frames : List Frame) (p : Place) (x : List Char) :
    CursorAgree x q u u' (skipFrames frames p (x ++ q :: u))
      (skipFrames frames p (x ++ q :: u')) := by
  induction x generalizing frames p with
  | nil =>
    cases frames with
    | nil => exact fun _ => ⟨rfl, [], List.suffix_refl [], rfl, rfl⟩
    | cons frame frames =>
      -- An open frame takes the quote.
      intro hlen
      exact absurd (length_rest_skipFrames_le _ _ u) (Nat.not_le.mpr hlen)
  | cons c x ih =>
    cases frames with
    | nil => exact fun _ => ⟨rfl, c :: x, List.suffix_refl _, rfl, rfl⟩
    | cons frame frames =>
      -- The character after this one is looked at, and it is the quote at the furthest.
      have ih := ih (frame.read p.line c (x ++ q :: u).head? ++ frames) (p.past c)
      simp only [List.cons_append, skipFrames, head?_append_cons x u u']
      exact ih.mono (List.suffix_cons c x)

variable {k : Cursor}

/-- A line that ends in front of the quote. -/
private theorem Cursor.nextLine_agree (u' : List Char) (hq : isQuote q = true)
    (hk : k.rest = x ++ q :: u) (hlen : u.length < k.nextLine.rest.length) :
    (k.facing (x ++ q :: u')).currentLine = k.currentLine ∧
      ∃ y, y <:+ x ∧ k.nextLine.rest = y ++ q :: u ∧
        (k.facing (x ++ q :: u')).nextLine = k.nextLine.facing (y ++ q :: u') := by
  by_cases hx : '\n' ∈ x
  -- The line ends at the first newline, and both texts share all up to it.
  · obtain ⟨a, b, rfl, ha⟩ := List.eq_append_cons_of_mem hx
    rw [List.append_assoc, List.cons_append] at hk ⊢
    unfold currentLine nextLine
    simp only [facing, hk, takeWhile_ne_newline _ ha, dropWhile_ne_newline _ ha, true_and]
    exact ⟨b, List.suffix_append_of_suffix (List.suffix_cons _ b), rfl, rfl⟩
  · -- Otherwise the line of the quote would have been read.
    exfalso
    have hpos : ∀ c ∈ x, decide (c ≠ '\n') = true :=
      fun c hc => decide_eq_true fun hn => hx (hn ▸ hc)
    have hqn : q ≠ '\n' := ne_of_isQuote hq rfl
    have hdrop : k.rest.dropWhile (· ≠ '\n') = u.dropWhile (· ≠ '\n') := by
      rw [hk, List.dropWhile_append_of_pos hpos]
      simp [hqn]
    have hle := (List.dropWhile_suffix (l := u) (fun c => decide (c ≠ '\n'))).length_le
    unfold nextLine at hlen
    rw [hdrop] at hlen
    split at hlen
    · exact absurd hlen (Nat.not_lt_zero _)
    · next c rest hrest =>
      rw [hrest, List.length_cons] at hle
      dsimp only at hlen
      omega

/-- The line that is looked for comes in front of the quote, or the quote would have been passed. -/
private theorem Cursor.linesThrough_agree (u' : List Char) (hq : isQuote q = true)
    (ends : List Char → Bool) (hk : k.rest = x ++ q :: u)
    (hlen : u.length < (k.linesThrough ends).2.rest.length) :
    ((k.facing (x ++ q :: u')).linesThrough ends).1 = (k.linesThrough ends).1 ∧
      ∃ y, y <:+ x ∧ (k.linesThrough ends).2.rest = y ++ q :: u ∧
        ((k.facing (x ++ q :: u')).linesThrough ends).2 =
          (k.linesThrough ends).2.facing (y ++ q :: u') := by
  have hmore : ∀ y, ¬(k.facing (y ++ q :: u')).rest = [] := by simp [facing]
  fun_induction linesThrough ends k generalizing x with
  | case1 k hrest => simp [hk] at hrest
  | case2 k hrest hends =>
    obtain ⟨hline, y, hy, hnext, hfacing⟩ := nextLine_agree u' hq hk hlen
    rw [linesThrough, dif_neg (hmore x), hline, if_pos hends]
    exact ⟨rfl, y, hy, hnext, hfacing⟩
  | case3 k hrest hends ih =>
    -- Later lines only leave less to read, so this one ends in front of the quote too.
    have hnextlen := Nat.lt_of_lt_of_le hlen (length_rest_linesThrough_le ends k.nextLine)
    obtain ⟨hline, y, hy, hnext, hfacing⟩ := nextLine_agree u' hq hk hnextlen
    obtain ⟨hfound, z, hz, hlast⟩ := ih hnext hlen (by simp [facing])
    rw [linesThrough, dif_neg (hmore x), hline, if_neg hends, hfacing]
    exact ⟨hfound, z, hz.trans hy, hlast⟩

/-- The bodies of heredocs that end in front of the quote are the same. -/
private theorem skipBodies_agree (hq : isQuote q = true) (heredocs : List Heredoc)
    (hk : k.rest = x ++ q :: u) :
    CursorAgree x q u u' (skipBodies heredocs k)
      (skipBodies heredocs (k.facing (x ++ q :: u'))) := by
  induction heredocs generalizing k x with
  | nil => exact fun _ => ⟨rfl, x, List.suffix_refl x, hk, rfl⟩
  | cons heredoc heredocs ih =>
    intro hlen
    -- If all bodies end in front of the quote, so does the first.
    have hfirst := Nat.lt_of_lt_of_le hlen (length_rest_skipBodies_le heredocs _)
    obtain ⟨hfound, y, hy, hnext, hfacing⟩ :=
      Cursor.linesThrough_agree u' hq heredoc.endsAt hk hfirst
    obtain ⟨hevents, z, hz, hlast, hfacing'⟩ := ih hnext hlen
    rw [← hfacing] at hevents hfacing'
    simp only [skipBodies, hfound, hevents]
    exact ⟨rfl, z, hz.trans hy, hlast, hfacing'⟩

/-- An embedded document that ends in front of the quote is the same. -/
private theorem skipDocument_agree (u' : List Char) (hq : isQuote q = true)
    (hk : k.rest = x ++ q :: u) :
    CursorAgree x q u u' (skipDocument k) (skipDocument (k.facing (x ++ q :: u'))) := by
  intro hlen
  have hfirst :=
    Nat.lt_of_lt_of_le hlen (Cursor.length_rest_linesThrough_le endsDocument k.nextLine)
  obtain ⟨-, y, hy, hnext, hfacing⟩ := Cursor.nextLine_agree u' hq hk hfirst
  obtain ⟨hfound, z, hz, hlast, hfacing'⟩ :=
    Cursor.linesThrough_agree u' hq endsDocument hnext hlen
  rw [← hfacing] at hfound hfacing'
  simp only [skipDocument, hfound]
  exact ⟨rfl, z, hz.trans hy, hlast, hfacing'⟩

end Cursors

namespace Reader

/-- The reader with another text ahead of it. -/
def facing (r : Reader) (cs : List Char) : Reader := { r with rest := cs }

/-- Unless the first reading goes past the quote, the second brings up the same and ends with the
    same reader facing the other text. -/
def Agree (x : List Char) (q : Char) (u u' : List Char) (a a' : Reading) : Prop :=
  u.length < a.2.rest.length →
    a'.1 = a.1 ∧ ∃ y, y <:+ x ∧ a.2.rest = y ++ q :: u ∧ a'.2 = a.2.facing (y ++ q :: u')

namespace Agree

variable {q : Char} {x y u u' : List Char} {a b a' b' : Reading}

/-- The two readers branch in the same way. -/
theorem ite {c : Prop} [Decidable c] (ha : c → Agree x q u u' a a')
    (hb : ¬c → Agree x q u u' b b') :
    Agree x q u u' (if c then a else b) (if c then a' else b') := by
  split
  · next hc => exact ha hc
  · next hc => exact hb hc

/-- What agrees on a later part of the text in front of the quote agrees on all of it. -/
theorem mono (h : Agree y q u u' a a') (hy : y <:+ x) : Agree x q u u' a a' := by
  intro hlen
  obtain ⟨hevents, z, hz, hrest, hfacing⟩ := h hlen
  exact ⟨hevents, z, hz.trans hy, hrest, hfacing⟩

/-- What changes the memory of a reader but not its place does the same to both. -/
theorem map (h : Agree x q u u' a a') {f : Reader → Reader} (hrest : ∀ r, (f r).rest = r.rest)
    (hf : ∀ r cs, f (facing r cs) = (f r).facing cs) :
    Agree x q u u' (a.1, f a.2) (a'.1, f a'.2) := by
  intro hlen
  rw [hrest] at hlen
  obtain ⟨hevents, y, hy, hnext, hfacing⟩ := h hlen
  exact ⟨hevents, y, hy, by rw [hrest, hnext], by rw [hfacing, hf]⟩

end Agree

section Agree

variable {before : List Char} {q : Char} {x u u' : List Char} {r : Reader}

/-- A hop in front of the quote. -/
private theorem hop_facing (u' : List Char) (hr : r.rest = x ++ q :: u) {n : Nat}
    (hn : n ≤ x.length) : (r.hop n).rest = x.drop n ++ q :: u ∧
      (r.facing (x ++ q :: u')).hop n = (r.hop n).facing (x.drop n ++ q :: u') := by
  have htake : ∀ w : List Char, (x ++ w).take n = x.take n :=
    fun w => List.take_append_of_le_length hn
  have hdrop : ∀ w : List Char, (x ++ w).drop n = x.drop n ++ w :=
    fun w => List.drop_append_of_le_length hn
  refine ⟨by rw [rest_hop, hr, hdrop], ?_⟩
  simp only [hop, facing, Cursor.hop, hr, htake, hdrop]

/-- A hop that stays in front of the quote, and what is brought up with it. -/
private theorem hop_agree (hr : r.rest = x ++ q :: u) (n : Nat) {found found' : List Event}
    (hfound : n ≤ x.length → found' = found) :
    Agree x q u u' (found, r.hop n) (found', (r.facing (x ++ q :: u')).hop n) := by
  intro hlen
  -- A hop that leaves more than what follows the quote stays in front of it.
  have hn : n ≤ x.length := by
    rw [rest_hop, List.length_drop, hr, List.length_append, List.length_cons] at hlen
    omega
  obtain ⟨hrest, hfacing⟩ := hop_facing u' hr hn
  exact ⟨hfound hn, x.drop n, List.drop_suffix n x, hrest, hfacing⟩

private theorem skipValue_agree (hr : r.rest = x ++ q :: u) (n : Nat) :
    Agree x q u u' (r.skipValue n) ((r.facing (x ++ q :: u')).skipValue n) :=
  (hop_agree hr n fun _ => rfl).map (f := markValue) (fun _ => rfl) fun _ _ => rfl

private theorem skipOperator_agree (hr : r.rest = x ++ q :: u) (n : Nat) :
    Agree x q u u' (r.skipOperator n) ((r.facing (x ++ q :: u')).skipOperator n) :=
  (hop_agree hr n fun _ => rfl).map (f := markOperator) (fun _ => rfl) fun _ _ => rfl

private theorem skipDot_agree (hr : r.rest = x ++ q :: u) (n : Nat) :
    Agree x q u u' (r.skipDot n) ((r.facing (x ++ q :: u')).skipDot n) :=
  (hop_agree hr n fun _ => rfl).map (f := markDot) (fun _ => rfl) fun _ _ => rfl

/-- A literal in terms of the hop over its opening. -/
theorem skipLiteral_eq (r : Reader) (n : Nat) (frame : Nat → Frame) :
    r.skipLiteral n frame =
      ((skipFrames [frame r.line] (r.hop n).toPlace (r.hop n).rest).2,
        (r.moveTo (skipFrames [frame r.line] (r.hop n).toPlace (r.hop n).rest).1).markValue) :=
  rfl

/-- A literal that closes in front of the quote is passed over alike. -/
private theorem skipLiteral_agree (hr : r.rest = x ++ q :: u) (n : Nat) (frame : Nat → Frame) :
    Agree x q u u' (r.skipLiteral n frame) ((r.facing (x ++ q :: u')).skipLiteral n frame) := by
  intro hlen
  have hn : n ≤ x.length := by
    have hle := length_rest_skipLiteral_le r n frame
    rw [hr, List.length_append, List.length_cons] at hle
    omega
  obtain ⟨hrest, hfacing⟩ := hop_facing u' hr hn
  -- The opening is in front of the quote, and the frames go on from there.
  have hframes : CursorAgree (x.drop n) q u u'
      (skipFrames [frame r.line] (r.hop n).toPlace (r.hop n).rest)
      (skipFrames [frame r.line] (r.hop n).toPlace (x.drop n ++ q :: u')) := by
    rw [hrest]
    exact skipFrames_agree _ _ _
  obtain ⟨hevents, y, hy, hnext, hlast⟩ := hframes hlen
  rw [skipLiteral_eq, skipLiteral_eq, hfacing]
  exact ⟨hevents, y, hy.trans (List.drop_suffix n x), hnext,
    congrArg (fun k => (r.moveTo k).markValue) hlast⟩

/-- Flags end at the quote at the furthest. -/
private theorem skipFlags_agree (hq : isQuote q = true) {a a' : Reading} (h : Agree x q u u' a a') :
    Agree x q u u' (a.1, a.2.skipFlags) (a'.1, a'.2.skipFlags) := by
  intro hlen
  obtain ⟨hevents, y, hy, hnext, hfacing⟩ :=
    h (Nat.lt_of_lt_of_le hlen (length_rest_skipFlags_le a.2))
  have hflags : ∀ w, (y ++ q :: w).takeWhile isRegexFlag = y.takeWhile isRegexFlag :=
    fun w => takeWhile_append_stop y w (eq_false_of_isQuote hq (by decide))
  have hhop : Agree y q u u' (a.1, a.2.skipFlags) (a'.1, a'.2.skipFlags) := by
    rw [hfacing, skipFlags, skipFlags, hnext, hflags]
    have hrest : (a.2.facing (y ++ q :: u')).rest = y ++ q :: u' := rfl
    rw [hrest, hflags]
    exact hop_agree hnext _ fun _ => hevents
  exact hhop.mono hy hlen

/-! ## Punctuation -/

/-- A symbol ends at the quote at the furthest, or is quoted itself and passes it. -/
private theorem readColon_agree (hq : isQuote q = true) (hr : r.rest = x ++ q :: u)
    (y : List Char) : Agree x q u u' (r.readColon (y ++ q :: u))
      ((r.facing (x ++ q :: u')).readColon (y ++ q :: u')) := by
  have hsymbol := symbolLength_quote hq y u u'
  have hoperator := operatorLength_quote hq y u u'
  -- The first character after the colon is the same, be it the quote or not.
  obtain ⟨c, w, w', hw, hw'⟩ := exists_cons_append (q := q) y u u'
  rw [hw, hw'] at hsymbol hoperator ⊢
  simp only [readColon, hsymbol, hoperator]
  refine .ite (fun _ => skipDot_agree hr 2) fun _ => ?_
  refine .ite (fun _ => skipLiteral_agree hr 2 _) fun _ => ?_
  refine .ite (fun _ => skipValue_agree hr _) fun _ => ?_
  exact .ite (fun _ => skipValue_agree hr _) fun _ => skipOperator_agree hr 1

/-- The opening of a percent literal may be the quote itself, which is then passed. -/
private theorem readPercent_agree (hq : isQuote q = true) (hr : r.rest = x ++ q :: u)
    (y : List Char) : Agree x q u u' (r.readPercent (y ++ q :: u))
      ((r.facing (x ++ q :: u')).readPercent (y ++ q :: u')) := by
  unfold readPercent
  rw [percentOpening?_quote hq y u u', head?_append_cons y u u']
  cases percentOpening? (y ++ q :: u) with
  | none => exact skipOperator_agree hr 1
  | some opening =>
    obtain ⟨type, delim, n⟩ := opening
    refine .ite (fun _ => ?_) fun _ => skipOperator_agree hr 1
    have hliteral : Agree x q u u' _ _ := skipLiteral_agree hr n (Frame.percent type delim)
    by_cases htype : type = 'r'
    · simp only [if_pos htype]
      exact skipFlags_agree hq hliteral
    · simp only [if_neg htype]
      exact hliteral

/-- Of what follows a slash only the first character is looked at. -/
private theorem readSlash_agree (hq : isQuote q = true) (hr : r.rest = x ++ q :: u)
    (y : List Char) : Agree x q u u' (r.readSlash (y ++ q :: u))
      ((r.facing (x ++ q :: u')).readSlash (y ++ q :: u')) := by
  unfold readSlash
  rw [head?_append_cons y u u']
  exact .ite (fun _ => skipFlags_agree hq (skipLiteral_agree hr 1 _)) fun _ =>
    skipOperator_agree hr 1

/-- Whether a character literal ends depends on one character more, which may be the first after the
    quote; both texts start with one that continues a word. -/
private theorem readQuestionMark_agree (h : Lookalike before q u u') (hr : r.rest = x ++ q :: u)
    (y : List Char) :
    Agree x q u u' (r.readQuestionMark (y ++ q :: u))
      ((r.facing (x ++ q :: u')).readQuestionMark (y ++ q :: u')) := by
  unfold readQuestionMark
  rw [characterLength?_quote y u u' h.starts h.starts']
  cases characterLength? (y ++ q :: u) with
  | none => exact skipOperator_agree hr 1
  | some n => exact .ite (fun _ => skipValue_agree hr n) fun _ => skipOperator_agree hr 1

/-- One less-than sign alone is an operator. -/
private theorem readLessThan_of_ne {c : Char} (hc : c ≠ '<') (r : Reader) (cs : List Char) :
    r.readLessThan (c :: cs) = r.skipOperator 1 := by
  unfold readLessThan
  split
  · next heq => exact absurd (List.cons.inj heq).1 hc
  · rfl

/-- A heredoc may be announced in front of the quote, with the quote as part of its name.  Then both
    texts close the name or neither does. -/
private theorem readLessThan_agree (h : Lookalike before q u u') (hr : r.rest = x ++ q :: u)
    {y : List Char} (hx : x = '<' :: y) :
    Agree x q u u' (r.readLessThan (y ++ q :: u))
      ((r.facing (x ++ q :: u')).readLessThan (y ++ q :: u')) := by
  have hless : q ≠ '<' := ne_of_isQuote h.isQuote rfl
  cases y with
  | nil =>
    rw [List.nil_append, List.nil_append, readLessThan_of_ne hless, readLessThan_of_ne hless]
    exact skipOperator_agree hr 1
  | cons c z =>
    by_cases hc : c = '<'
    · subst hc
      simp only [List.cons_append, readLessThan]
      -- Both announce the same, or both announce something and the first goes past the quote.
      rcases Heredoc.opening?_quote h.isQuote h.closes_eq h.closed z with
        heq | ⟨hsome, heredoc, n, hn, hlt⟩
      · rw [heq]
        cases Heredoc.opening? (z ++ q :: u) with
        | none => exact skipOperator_agree hr 1
        | some opening =>
          refine .ite (fun _ => ?_) fun _ => skipOperator_agree hr 1
          exact (hop_agree hr (opening.2 + 2) fun _ => rfl).map
            (f := fun s => { s.markValue with heredocs := r.heredocs ++ [opening.1] })
            (fun _ => rfl) fun _ _ => rfl
      · obtain ⟨opening', hopening'⟩ := Option.isSome_iff_exists.mp hsome
        rw [hn, hopening']
        refine .ite (fun _ hlen => ?_) fun _ => skipOperator_agree hr 1
        -- A heredoc whose terminator holds the quote would have been read past it.
        exfalso
        change u.length < (r.rest.drop (n + 2)).length at hlen
        rw [List.length_drop, hr, hx, List.length_append, List.length_cons, List.length_cons,
          List.length_cons] at hlen
        omega
    · rw [List.cons_append, List.cons_append, readLessThan_of_ne hc, readLessThan_of_ne hc]
      exact skipOperator_agree hr 1

/-- Dots, with their number as a condition on characters. -/
private theorem readDot_cons (r : Reader) (c : Char) (cs : List Char) :
    r.readDot (c :: cs) =
      if c = '.' then if cs.head? = some '.' then r.skipOperator 3 else r.skipOperator 2
      else r.skipDot 1 := by
  unfold readDot
  split
  · next heq =>
    obtain ⟨rfl, rfl⟩ := List.cons.inj heq
    rfl
  · next tail hone heq =>
    obtain ⟨rfl, rfl⟩ := List.cons.inj heq
    rw [if_pos rfl, if_neg]
    intro hhead
    obtain ⟨rest, rfl⟩ := List.head?_eq_some_iff.mp hhead
    exact hone rest rfl
  · next hnone =>
    rw [if_neg]
    rintro rfl
    exact hnone cs rfl

/-- Dots are those in front of the quote. -/
private theorem readDot_agree (hq : isQuote q = true) (hr : r.rest = x ++ q :: u) (y : List Char) :
    Agree x q u u' (r.readDot (y ++ q :: u))
      ((r.facing (x ++ q :: u')).readDot (y ++ q :: u')) := by
  have hdot : q ≠ '.' := ne_of_isQuote hq rfl
  cases y with
  | nil =>
    rw [List.nil_append, List.nil_append, readDot_cons, readDot_cons, if_neg hdot, if_neg hdot]
    exact skipDot_agree hr 1
  | cons c y =>
    rw [List.cons_append, List.cons_append, readDot_cons, readDot_cons, head?_append_cons y u u']
    refine .ite (fun _ => ?_) fun _ => skipDot_agree hr 1
    exact .ite (fun _ => skipOperator_agree hr 3) fun _ => skipOperator_agree hr 2

/-- A variable, with its signs as a condition on characters. -/
private theorem readVariable_cons (r : Reader) (c : Char) (cs : List Char) :
    r.readVariable (c :: cs) =
      if c = '@' then r.skipValue (wordLength cs + 2)
      else r.skipValue (wordLength (c :: cs) + 1) := by
  unfold readVariable
  split
  · next heq =>
    obtain ⟨rfl, rfl⟩ := List.cons.inj heq
    rfl
  · next hnone =>
    rw [if_neg]
    rintro rfl
    exact hnone cs rfl

/-- The name of a variable ends at the quote at the furthest. -/
private theorem readVariable_agree (hq : isQuote q = true) (hr : r.rest = x ++ q :: u)
    (y : List Char) : Agree x q u u' (r.readVariable (y ++ q :: u))
      ((r.facing (x ++ q :: u')).readVariable (y ++ q :: u')) := by
  have hword : ∀ z, wordLength (z ++ q :: u') = wordLength (z ++ q :: u) := fun z => by
    rw [wordLength_append hq, wordLength_append hq]
  cases y with
  | nil =>
    have hat : q ≠ '@' := ne_of_isQuote hq rfl
    rw [List.nil_append, List.nil_append, readVariable_cons, readVariable_cons, if_neg hat,
      if_neg hat, show wordLength (q :: u') = wordLength (q :: u) from hword []]
    exact skipValue_agree hr _
  | cons c y =>
    rw [List.cons_append, List.cons_append, readVariable_cons, readVariable_cons, hword,
      show wordLength (c :: (y ++ q :: u')) = wordLength (c :: (y ++ q :: u)) from hword (c :: y)]
    exact .ite (fun _ => skipValue_agree hr _) fun _ => skipValue_agree hr _

/-- So does that of a global, unless the quote is the name. -/
private theorem readGlobal_agree (hq : isQuote q = true) (hr : r.rest = x ++ q :: u)
    (y : List Char) : Agree x q u u' (r.readGlobal (y ++ q :: u))
      ((r.facing (x ++ q :: u')).readGlobal (y ++ q :: u')) := by
  rw [readGlobal, readGlobal, head?_append_cons y u u', wordLength_append hq, wordLength_append hq]
  exact skipValue_agree hr _

/-- Which endless definitions are closed does not depend on the text ahead. -/
private theorem closeEndless_facing (r : Reader) (cs : List Char) :
    (r.facing cs).closeEndless = (r.closeEndless.1, r.closeEndless.2.facing cs) := by
  obtain ⟨k, value, dot, identifier, depth, blocks, loop, endless, heredocs⟩ := r
  cases value <;> rfl

/-- The definitions that end with a statement end alike. -/
theorem Agree.closeEndless {a a' : Reading} (h : Agree x q u u' a a') :
    Agree x q u u' (a.1 ++ a.2.closeEndless.1, a.2.closeEndless.2)
      (a'.1 ++ a'.2.closeEndless.1, a'.2.closeEndless.2) := by
  intro hlen
  rw [rest_closeEndless] at hlen
  obtain ⟨hevents, y, hy, hnext, hfacing⟩ := h hlen
  refine ⟨?_, y, hy, by rw [rest_closeEndless, hnext], ?_⟩
  · rw [hevents, hfacing, closeEndless_facing]
  · rw [hfacing, closeEndless_facing]

/-- A semicolon in front of the quote. -/
private theorem readSemicolon_agree (hr : r.rest = x ++ q :: u) :
    Agree x q u u' r.readSemicolon (r.facing (x ++ q :: u')).readSemicolon :=
  ((hop_agree hr 1 fun _ => rfl : Agree x q u u' ([], r.hop 1) ([], _)).closeEndless).map
    (f := markOperator) (fun _ => rfl) fun _ _ => rfl

/-- Brackets and operators in front of the quote. -/
private theorem readSign_agree (hq : isQuote q = true) (hr : r.rest = x ++ q :: u) (c : Char)
    (y : List Char) :
    Agree x q u u' (r.readSign c (y ++ q :: u))
      ((r.facing (x ++ q :: u')).readSign c (y ++ q :: u')) := by
  have hhop : Agree x q u u' ([], r.hop 1) ([], (r.facing (x ++ q :: u')).hop 1) :=
    hop_agree hr 1 fun _ => rfl
  rw [readSign, readSign, head?_append_cons y u u']
  refine .ite (fun _ => hhop.map (f := fun s => { s.markOperator with depth := r.depth + 1 })
    (fun _ => rfl) fun _ _ => rfl) fun _ => ?_
  refine .ite (fun _ => hhop.map (f := fun s => { s.markValue with depth := r.depth - 1 })
    (fun _ => rfl) fun _ _ => rfl) fun _ => ?_
  refine .ite (fun _ => readSemicolon_agree hr) fun _ => ?_
  refine .ite (fun _ => readDot_agree hq hr y) fun _ => ?_
  exact .ite (fun _ => skipDot_agree hr 2) fun _ => skipOperator_agree hr 1

/-- All punctuation in front of the quote. -/
private theorem readPunctuation_agree (h : Lookalike before q u u') (hr : r.rest = x ++ q :: u)
    {c : Char} {y : List Char} (hx : x = c :: y) :
    Agree x q u u' (r.readPunctuation c (y ++ q :: u))
      ((r.facing (x ++ q :: u')).readPunctuation c (y ++ q :: u')) := by
  have hnumber := numberLength_quote h.isQuote (c :: y) u u'
  simp only [List.cons_append] at hnumber
  unfold readPunctuation
  rw [hnumber]
  refine .ite (fun _ => skipLiteral_agree hr 1 _) fun _ => ?_
  refine .ite (fun _ => skipValue_agree hr _) fun _ => ?_
  refine .ite (fun _ => readColon_agree h.isQuote hr y) fun _ => ?_
  refine .ite (fun _ => readVariable_agree h.isQuote hr y) fun _ => ?_
  refine .ite (fun _ => readGlobal_agree h.isQuote hr y) fun _ => ?_
  refine .ite (fun _ => readPercent_agree h.isQuote hr y) fun _ => ?_
  refine .ite (fun _ => readSlash_agree h.isQuote hr y) fun _ => ?_
  refine .ite (fun _ => readQuestionMark_agree h hr y) fun _ => ?_
  exact .ite (fun hc => readLessThan_agree h hr (hc ▸ hx)) fun _ => readSign_agree h.isQuote hr c y

/-! ## Words -/

/-- The characters in front of the quote that a reader takes. -/
private theorem take_rest_facing (hr : r.rest = x ++ q :: u) {n : Nat} (hn : n ≤ x.length) :
    (r.facing (x ++ q :: u')).rest.take n = r.rest.take n := by
  change (x ++ q :: u').take n = _
  rw [hr, List.take_append_of_le_length hn, List.take_append_of_le_length hn]

/-- A constant in front of the quote. -/
private theorem takeConstant_agree (hr : r.rest = x ++ q :: u) (n : Nat) :
    Agree x q u u' (r.takeConstant n) ((r.facing (x ++ q :: u')).takeConstant n) := by
  refine (hop_agree hr n fun hn => ?_).map (f := markValue) (fun _ => rfl) fun _ _ => rfl
  rw [take_rest_facing hr hn]
  rfl

/-- An identifier in front of the quote. -/
private theorem takeIdentifier_agree (hr : r.rest = x ++ q :: u) (n : Nat) :
    Agree x q u u' (r.takeIdentifier n) ((r.facing (x ++ q :: u')).takeIdentifier n) := by
  refine (hop_agree hr n fun hn => ?_).map
    (f := fun s => { s.markValue with afterIdentifier := true }) (fun _ => rfl) fun _ _ => rfl
  rw [take_rest_facing hr hn]
  rfl

/-- Opening the body of a method does not depend on the text ahead. -/
private theorem openDefinition_facing (r : Reader) (cs : List Char) (endless : Bool) :
    (r.facing cs).openDefinition endless = (r.openDefinition endless).facing cs := by
  cases endless <;> rfl

/-- What is read of a definition from its name on, if there is a name: the body that it opens,
    too. -/
def takeName (r : Reader) (keyword : Event) (endless : Bool) (n : Nat) : Reading :=
  if 0 < n then
    ([keyword, .token (Token.identifier (String.ofList (r.rest.take n)) r.location)],
      ((r.openDefinition endless).hop n).markValue)
  else ([keyword], (r.openDefinition endless).markOperator)

/-- The name is taken, and nothing more. -/
private theorem rest_takeName (r : Reader) (keyword : Event) (endless : Bool) (n : Nat) :
    (r.takeName keyword endless n).2.rest = r.rest.drop n := by
  unfold takeName
  split
  · rw [rest_markValue, rest_hop, rest_openDefinition]
  · next hn =>
    rw [rest_markOperator, rest_openDefinition, Nat.eq_zero_of_not_pos hn, List.drop_zero]

/-- A name in front of the quote. -/
private theorem takeName_agree (hr : r.rest = x ++ q :: u) (keyword : Event) (endless : Bool)
    (n : Nat) : Agree x q u u' (r.takeName keyword endless n)
      ((r.facing (x ++ q :: u')).takeName keyword endless n) := by
  have hopened : (r.openDefinition endless).rest = x ++ q :: u := by
    rw [rest_openDefinition, hr]
  unfold takeName
  rw [openDefinition_facing]
  refine .ite (fun _ => ?_) fun _ _ => ⟨rfl, x, List.suffix_refl x, hopened, rfl⟩
  refine (hop_agree hopened n fun hn => ?_).map (f := markValue) (fun _ => rfl) fun _ _ => rfl
  rw [take_rest_facing hr hn]
  rfl

/-- A definition is read up to its name, which comes after `s` spaces and a receiver of `m`
    characters and has `n` characters itself. -/
private theorem readDefinition_eq {s m n : Nat} (hs : spacesLength (r.rest.drop 3) = s)
    (hm : receiverLength ((r.rest.drop 3).drop s) = m)
    (hn : methodNameLength ((r.rest.drop 3).drop (s + m)) = n) :
    r.readDefinition =
      ((r.hop 3).hop (s + m)).takeName
        (r.keywordHere "def" .newScope
          (some (if r.inSingletonClass ∨ 0 < m then .method else .instanceMethod)))
        (0 < n ∧ isEndless (((r.rest.drop 3).drop (s + m)).drop n)) n := by
  subst hs hm hn
  rfl

/-- Whether a definition is endless, where `m` characters come between its keyword and the
    parameters. -/
private theorem isEndless_lookalike (h : Lookalike before q u u') {v : List Char}
    (hv : "def".toList ++ v <:+ before) (hword : v.head?.any isWordChar = false) {m : Nat}
    (hm : ∀ c ∈ v.take m, c ≠ '(' ∧ c ≠ '\n') :
    isEndless (v.drop m ++ q :: u') = isEndless (v.drop m ++ q :: u) := by
  refine isEndless_quote h.isQuote _ u u' fun y hy hopen => h.startsBody_eq ?_
  -- Where the parameters are still open at the quote, the quote stands in parameters of this
  -- definition.
  have hsplit : v = (v.take m ++ (v.drop m).takeWhile isSpace) ++ '(' :: y := by
    rw [List.append_assoc, ← hy, List.takeWhile_append_dropWhile, List.take_append_drop]
  rw [hsplit] at hv hword
  refine inParameters_of_suffix hv hword (fun c hc => ?_) hopen
  rcases List.mem_append.mp hc with hc | hc
  · exact hm c hc
  · have hspace := List.mem_takeWhile_imp hc
    constructor <;> rintro rfl <;> exact absurd hspace (by decide)

/-- The head of a definition in front of the quote.  Whether it is endless is looked up past its
    parameters, and those may hold the quote. -/
private theorem readDefinition_agree (h : Lookalike before q u u') (hr : r.rest = x ++ q :: u)
    (hx : x <:+ before) {v : List Char} (hdef : x = "def".toList ++ v)
    (hword : v.head?.any isWordChar = false) :
    Agree x q u u' r.readDefinition (r.facing (x ++ q :: u')).readDefinition := by
  have hhead : ∀ w, (x ++ w).drop 3 = v ++ w := by
    intro w
    rw [hdef]
    rfl
  -- The two texts agree on the spaces, the receiver and the name.
  obtain ⟨s, hs⟩ : ∃ s, spacesLength v = s := ⟨_, rfl⟩
  have hspaces : ∀ w, spacesLength (v ++ q :: w) = s := fun w => by
    rw [spacesLength_append h.isQuote, hs]
  have hsle : s ≤ v.length := hs ▸ (List.takeWhile_sublist isSpace).length_le
  obtain ⟨m, hm⟩ : ∃ m, receiverLength (v.drop s ++ q :: u) = m := ⟨_, rfl⟩
  have hreceiver : ∀ w, receiverLength ((v ++ q :: w).drop s) = m := fun w => by
    rw [List.drop_append_of_le_length hsle, receiverLength_quote h.isQuote _ u w, hm]
  obtain ⟨n, hn⟩ : ∃ n, methodNameLength ((v ++ q :: u).drop (s + m)) = n := ⟨_, rfl⟩
  rw [readDefinition_eq (r := r) (by rw [hr, hhead, hspaces]) (by rw [hr, hhead, hreceiver])
    (by rw [hr, hhead, hn])]
  intro hlen
  -- All of them stand before the quote, if it is not passed.
  have hle : s + m + n ≤ v.length := by
    rw [rest_takeName, rest_hop, rest_hop, hr, hhead] at hlen
    simp only [List.length_drop, List.length_append, List.length_cons] at hlen
    omega
  have hthere : ∀ w, (v ++ w).drop (s + m) = v.drop (s + m) ++ w :=
    fun w => List.drop_append_of_le_length (by omega)
  have hname : ∀ w, methodNameLength ((v ++ q :: w).drop (s + m)) = n := fun w => by
    rw [hthere, methodNameLength_quote h.isQuote _ u w, ← hthere, hn]
  have hbehind : ∀ w, ((v ++ w).drop (s + m)).drop n = v.drop (s + m + n) ++ w := fun w => by
    rw [List.drop_drop]
    exact List.drop_append_of_le_length hle
  have hchars : ∀ c ∈ v.take (s + m + n), c ≠ '(' ∧ c ≠ '\n' :=
    fun c hc => ne_of_mem_heading hs hm (by rw [← hthere, hn]) hle hc
  have hrest : (r.facing (x ++ q :: u')).rest = x ++ q :: u' := rfl
  rw [readDefinition_eq (r := r.facing (x ++ q :: u')) (by rw [hrest, hhead, hspaces])
    (by rw [hrest, hhead, hreceiver]) (by rw [hrest, hhead, hname]), hrest, hhead, hbehind,
    isEndless_lookalike h (hdef ▸ hx) hword hchars]
  rw [hr, hhead, hbehind] at hlen ⊢
  have hv : x.drop 3 = v := by
    rw [hdef]
    rfl
  have hthree : 3 ≤ x.length := by
    rw [hdef, List.length_append]
    exact Nat.le_add_right 3 _
  obtain ⟨hrest₁, hfacing₁⟩ := hop_facing u' hr hthree
  rw [hv] at hrest₁ hfacing₁
  obtain ⟨hrest₂, hfacing₂⟩ := hop_facing u' hrest₁ (n := s + m) (by omega)
  rw [hfacing₁, hfacing₂]
  have hsuffix : v.drop (s + m) <:+ x :=
    (List.drop_suffix _ v).trans (hdef ▸ List.suffix_append _ v)
  exact (takeName_agree hrest₂ _ _ n).mono hsuffix hlen

/-- A class, with what comes next as a condition on characters. -/
private theorem readClass_eq (r : Reader) :
    r.readClass =
      if ['<', '<'].isPrefixOf ((r.rest.drop 5).dropWhile isSpace) = true then
        ([r.keywordHere "class" .other none], ((r.hop 5).markOperator).push .singletonClass)
      else
        ([r.keywordHere "class" .newScope (some .classDef)],
          ((r.hop 5).markOperator).push .construct) := by
  unfold readClass
  dsimp only
  split
  · next rest heq =>
    rw [rest_markOperator, rest_hop] at heq
    rw [heq]
    rfl
  · next hnone =>
    rw [if_neg]
    intro hprefix
    obtain ⟨rest, hrest⟩ := List.isPrefixOf_iff_prefix.mp hprefix
    exact hnone rest hrest.symm

/-- The keyword of a class in front of the quote: the signs after it are in front of it, too. -/
private theorem readClass_agree (hq : isQuote q = true) (hr : r.rest = x ++ q :: u) :
    Agree x q u u' r.readClass (r.facing (x ++ q :: u')).readClass := by
  have hless : q ∉ ['<', '<'].dropLast := by
    have : q ≠ '<' := ne_of_isQuote hq rfl
    simpa using this
  have hhop : ∀ found, Agree x q u u' (found, r.hop 5) (found, (r.facing (x ++ q :: u')).hop 5) :=
    fun _ => hop_agree hr 5 fun _ => rfl
  by_cases hfive : 5 ≤ x.length
  · have hahead : ∀ w, ((x ++ q :: w).drop 5).dropWhile isSpace =
        (x.drop 5).dropWhile isSpace ++ q :: w := by
      intro w
      have hspace : isSpace q = false := eq_false_of_isQuote hq (by decide)
      rw [List.drop_append_of_le_length hfive, dropWhile_append_stop _ _ hspace]
    have hrest : (r.facing (x ++ q :: u')).rest = x ++ q :: u' := rfl
    rw [readClass_eq, readClass_eq, hrest, hr, hahead, hahead, isPrefixOf_quote _ u u' hless]
    refine .ite (fun _ => ?_) fun _ => ?_
    · exact (hhop _).map (f := fun s => s.markOperator.push .singletonClass) (fun _ => rfl)
        fun _ _ => rfl
    · exact (hhop _).map (f := fun s => s.markOperator.push .construct) (fun _ => rfl)
        fun _ _ => rfl
  -- Without room for the keyword in front of the quote it would be passed.
  · intro hlen
    have hrest : r.readClass.2.rest = r.rest.drop 5 := by
      rw [readClass_eq]
      split <;> rfl
    rw [hrest, List.length_drop, hr, List.length_append, List.length_cons] at hlen
    omega

/-- An `end` in front of the quote. -/
private theorem readEnd_agree (hr : r.rest = x ++ q :: u) :
    Agree x q u u' r.readEnd (r.facing (x ++ q :: u')).readEnd := by
  have hblocks : (r.facing (x ++ q :: u')).blocks = r.blocks := rfl
  have hhop : ∀ found, Agree x q u u' (found, r.hop 3) (found, (r.facing (x ++ q :: u')).hop 3) :=
    fun _ => hop_agree hr 3 fun _ => rfl
  simp only [readEnd, hblocks]
  split
  · exact (hhop _).map (f := markValue) (fun _ => rfl) fun _ _ => rfl
  · next blocks _ =>
    exact (hhop _).map (f := fun s => { s.markValue with blocks }) (fun _ => rfl) fun _ _ => rfl
  · next blocks _ _ =>
    exact (hhop _).map (f := fun s => { s.markValue with blocks }) (fun _ => rfl) fun _ _ => rfl

/-- Which block a keyword opens does not depend on the text ahead. -/
private theorem openBlockOf_facing (r : Reader) (cs : List Char) (word : String) :
    (r.facing cs).openBlockOf word = (r.openBlockOf word).facing cs := by
  have hline : (r.facing cs).line = r.line := rfl
  have hvalue : (r.facing cs).valueExpected = r.valueExpected := rfl
  have hloop : (r.facing cs).loopLine = r.loopLine := rfl
  unfold openBlockOf openBlock
  simp only [hline, hvalue, hloop]
  grind [facing, push]

/-- Any other keyword in front of the quote. -/
private theorem readOtherKeyword_agree (hr : r.rest = x ++ q :: u) (word : String) :
    Agree x q u u' (r.readOtherKeyword word)
      ((r.facing (x ++ q :: u')).readOtherKeyword word) := by
  have hopened : (r.openBlockOf word).rest = x ++ q :: u := by
    rw [rest_openBlockOf, hr]
  have hhop : Agree x q u u'
      ([r.keywordHere word .other none], (r.openBlockOf word).hop word.length)
      ([r.keywordHere word .other none],
        ((r.openBlockOf word).facing (x ++ q :: u')).hop word.length) :=
    hop_agree hopened _ fun _ => rfl
  simp only [readOtherKeyword, openBlockOf_facing]
  split
  · exact hhop.map (f := markValue) (fun _ => rfl) fun _ _ => rfl
  · exact hhop.map (f := markOperator) (fun _ => rfl) fun _ _ => rfl

/-- Every keyword in front of the quote. -/
private theorem readKeyword_agree (h : Lookalike before q u u') (hr : r.rest = x ++ q :: u)
    (hx : x <:+ before) {word : List Char} (hword : wordAt (x ++ q :: u) = word) :
    Agree x q u u' (r.readKeyword (String.ofList word))
      ((r.facing (x ++ q :: u')).readKeyword (String.ofList word)) := by
  refine .ite (fun hdef => ?_) fun _ => ?_
  · have hw : word = "def".toList := by rw [← hdef, String.toList_ofList]
    -- The word is the whole of what precedes a character that continues none.
    obtain ⟨v, hv⟩ := wordAt_prefix h.isQuote x u
    rw [hword, hw] at hv
    rw [← hv, List.append_assoc, hw] at hword
    have hnext := head?_of_wordAt_eq_def hword
    refine readDefinition_agree h hr hx hv.symm ?_
    cases v with
    | nil => rfl
    | cons c v => exact hnext
  refine .ite (fun _ => ?_) fun _ => ?_
  · exact (hop_agree hr 6 fun _ => rfl).map (f := fun s => s.markOperator.push .construct)
      (fun _ => rfl) fun _ _ => rfl
  refine .ite (fun _ => readClass_agree h.isQuote hr) fun _ => ?_
  exact .ite (fun _ => readEnd_agree hr) fun _ => readOtherKeyword_agree hr _

/-- Every word in front of the quote. -/
private theorem readWord_agree (h : Lookalike before q u u') (hr : r.rest = x ++ q :: u)
    (hx : x <:+ before) :
    Agree x q u u' r.readWord (r.facing (x ++ q :: u')).readWord := by
  have hword : wordAt (r.facing (x ++ q :: u')).rest = wordAt r.rest := by
    rw [hr]
    exact wordAt_quote h.isQuote x u u'
  have hprefix : wordAt r.rest <+: x := by
    rw [hr]
    exact wordAt_prefix h.isQuote x u
  have hdrop : ∀ w, (x ++ w).drop (wordAt r.rest).length = x.drop (wordAt r.rest).length ++ w :=
    fun w => List.drop_append_of_le_length hprefix.length_le
  -- What follows the word settles whether it is a label and how far a path goes on.
  have hafter : r.rest.drop (wordAt r.rest).length = x.drop (wordAt r.rest).length ++ q :: u := by
    rw [← hdrop, ← hr]
  have hafter' : (r.facing (x ++ q :: u')).rest.drop (wordAt r.rest).length =
      x.drop (wordAt r.rest).length ++ q :: u' :=
    hdrop (q :: u')
  unfold readWord
  simp only [hword, hafter, hafter', isLabelColon_quote h.isQuote _ u u',
    pathLength_quote h.isQuote _ u u']
  refine .ite (fun _ => ?_) fun _ => ?_
  · exact .ite (fun _ => takeConstant_agree hr _) fun _ => takeIdentifier_agree hr _
  refine .ite (fun _ => ?_) fun _ => ?_
  · exact (hop_agree hr _ fun _ => rfl).map (f := markOperator) (fun _ => rfl) fun _ _ => rfl
  refine .ite (fun _ => readKeyword_agree h hr hx (by rw [← hr])) fun _ => ?_
  exact .ite (fun _ => takeConstant_agree hr _) fun _ => takeIdentifier_agree hr _

/-! ## Steps -/

/-- A comment that ends in front of the quote. -/
private theorem readComment_agree (hq : isQuote q = true) (hr : r.rest = x ++ q :: u) :
    Agree x q u u' r.readComment (r.facing (x ++ q :: u')).readComment := by
  by_cases hx : '\n' ∈ x
  · obtain ⟨a, b, rfl, ha⟩ := List.eq_append_cons_of_mem hx
    have hline : ∀ w, (a ++ '\n' :: b ++ w).takeWhile (· ≠ '\n') = a := fun w => by
      rw [List.append_assoc, List.cons_append, takeWhile_ne_newline _ ha]
    have hrest : (r.facing (a ++ '\n' :: b ++ q :: u')).rest = a ++ '\n' :: b ++ q :: u' := rfl
    unfold readComment Cursor.currentLine
    rw [hrest, hr, hline, hline]
    exact hop_agree hr a.length fun _ => rfl
  · -- A comment that is still open at the quote takes it.
    intro hlen
    exfalso
    have hpos : ∀ c ∈ x, decide (c ≠ '\n') = true :=
      fun c hc => decide_eq_true fun hn => hx (hn ▸ hc)
    have hqn : q ≠ '\n' := ne_of_isQuote hq rfl
    have hline : (r.rest.takeWhile (· ≠ '\n')).length =
        x.length + ((u.takeWhile (· ≠ '\n')).length + 1) := by
      rw [hr, List.takeWhile_append_of_pos hpos, List.length_append]
      simp [hqn]
    change u.length < (r.rest.drop (r.rest.takeWhile (· ≠ '\n')).length).length at hlen
    rw [hline, List.length_drop, hr, List.length_append, List.length_cons] at hlen
    omega

/-- The end of a line in front of the quote, with the heredoc bodies after it. -/
private theorem readNewline_agree (hq : isQuote q = true) (hr : r.rest = x ++ q :: u) :
    Agree x q u u' r.readNewline (r.facing (x ++ q :: u')).readNewline := by
  -- The bodies of the heredocs come first, and end before the quote if all of it does.
  have hbodies : Agree x q u u'
      ((skipBodies r.heredocs r.nextLine).2,
        { r.moveTo (skipBodies r.heredocs r.nextLine).1 with heredocs := [] })
      ((skipBodies r.heredocs (r.facing (x ++ q :: u')).nextLine).2,
        { r.moveTo (skipBodies r.heredocs (r.facing (x ++ q :: u')).nextLine).1 with
          heredocs := [] }) := by
    intro hlen
    have hfirst : u.length < r.nextLine.rest.length :=
      Nat.lt_of_lt_of_le hlen (length_rest_skipBodies_le r.heredocs r.nextLine)
    obtain ⟨-, y, hy, hnext, hfacing⟩ := Cursor.nextLine_agree u' hq hr hfirst
    have hfacing : (r.facing (x ++ q :: u')).nextLine = r.nextLine.facing (y ++ q :: u') := hfacing
    obtain ⟨hevents, z, hz, hlast, hfacing'⟩ := skipBodies_agree hq r.heredocs hnext hlen
    rw [hfacing]
    exact ⟨hevents, z, hz.trans hy, hlast,
      congrArg (fun k => ({ r.moveTo k with heredocs := [] } : Reader)) hfacing'⟩
  exact hbodies.closeEndless.map (f := markOperator) (fun _ => rfl) fun _ _ => rfl

/-- Whatever stands in front of the quote is read alike. -/
private theorem read_agree (h : Lookalike before q u u') (hr : r.rest = x ++ q :: u)
    (hx : x <:+ before) {c : Char} {y : List Char} (hc : x = c :: y) :
    Agree x q u u' (r.read c (y ++ q :: u)) ((r.facing (x ++ q :: u')).read c (y ++ q :: u')) := by
  unfold read
  rw [head?_append_cons y u u']
  refine .ite (fun _ => readNewline_agree h.isQuote hr) fun _ => ?_
  refine .ite (fun _ => hop_agree hr 1 fun _ => rfl) fun _ => ?_
  refine .ite (fun _ hlen => ?_) fun _ => ?_
  · -- A backslash at the end of a line.
    obtain ⟨hrest, hfacing⟩ := hop_facing u' hr (n := 1) (by rw [hc]; simp)
    obtain ⟨-, z, hz, hnext, hfacing'⟩ := Cursor.nextLine_agree u' h.isQuote hrest hlen
    have hfacing : (r.facing (x ++ q :: u')).toCursor.hop 1 =
        (r.toCursor.hop 1).facing (x.drop 1 ++ q :: u') :=
      congrArg toCursor hfacing
    rw [hfacing]
    exact ⟨rfl, z, hz.trans (List.drop_suffix 1 x), hnext, congrArg r.moveTo hfacing'⟩
  refine .ite (fun _ => readComment_agree h.isQuote hr) fun _ => ?_
  exact .ite (fun _ => readWord_agree h hr hx) fun _ => readPunctuation_agree h hr hc

/-- One step in front of the quote. -/
theorem step?_agree (h : Lookalike before q u u') (hr : r.rest = x ++ q :: u)
    (hx : x <:+ before) {found : List Event} {next : Reader} (hstep : r.step? = some (found, next))
    (hlen : u.length < next.rest.length) :
    ∃ y, y <:+ x ∧ next.rest = y ++ q :: u ∧
      (r.facing (x ++ q :: u')).step? = some (found, next.facing (y ++ q :: u')) := by
  have hshorter := step?_shorter hstep
  cases x with
  | nil =>
    -- The step would take the quote.
    rw [hr, List.nil_append, List.length_cons] at hshorter
    omega
  | cons c y =>
    -- Both readers ask the same questions at the start of a line, and the quote starts no marker.
    have hcolumn : (r.facing (c :: (y ++ q :: u'))).column = r.column := rfl
    have hrest : (r.facing (c :: y ++ q :: u')).rest = c :: (y ++ q :: u') := rfl
    have hmarker : startsEndMarker (c :: (y ++ q :: u')) = startsEndMarker (c :: (y ++ q :: u)) :=
      startsEndMarker_quote h.isQuote (c :: y) u u'
    have hdocument : startsDocument (c :: (y ++ q :: u')) = startsDocument (c :: (y ++ q :: u)) :=
      startsDocument_quote h.isQuote (c :: y) u u'
    rw [step?, hr] at hstep
    rw [step?, hrest]
    simp only [List.cons_append, hcolumn, hmarker, hdocument] at hstep ⊢
    split at hstep
    · cases hstep
    next hgoes =>
    rw [if_neg hgoes]
    split at hstep
    · next hdoc =>
      obtain ⟨rfl, rfl⟩ := Prod.mk.inj (Option.some.inj hstep)
      obtain ⟨hevents, z, hz, hlast, hfacing⟩ := skipDocument_agree u' h.isQuote hr hlen
      have hfacing' : skipDocument (r.facing (c :: (y ++ q :: u'))).toCursor =
          ((skipDocument r.toCursor).1.facing (z ++ q :: u'), (skipDocument r.toCursor).2) :=
        Prod.ext hfacing hevents
      refine ⟨z, hz, hlast, ?_⟩
      rw [if_pos hdoc, hfacing']
      rfl
    · next hdoc =>
      have hread := Option.some.inj hstep
      have hagree := read_agree h hr hx rfl
      rw [hread] at hagree
      obtain ⟨hevents, z, hz, hlast, hfacing⟩ := hagree hlen
      refine ⟨z, hz, hlast, ?_⟩
      rw [if_neg hdoc]
      exact congrArg some (Prod.ext hevents hfacing)

/-- A text that ends for one reader ends for the other. -/
private theorem step?_facing_of_none (hq : isQuote q = true) (hr : r.rest = x ++ q :: u)
    (hstep : r.step? = none) : (r.facing (x ++ q :: u')).step? = none := by
  have hmarker := startsEndMarker_quote hq x u u'
  obtain ⟨c, w, w', hw, hw'⟩ := exists_cons_append (q := q) x u u'
  have hcolumn : (r.facing (c :: w')).column = r.column := rfl
  have hrest : (r.facing (c :: w')).rest = c :: w' := rfl
  rw [hw] at hr
  rw [hw, hw'] at hmarker
  rw [step?, hr] at hstep
  rw [hw', step?, hrest]
  simp only [hcolumn, hmarker]
  -- Only the marker ends a text that is not empty.
  by_cases hends : r.column = 0 ∧ startsEndMarker (c :: w) = true
  · rw [if_pos hends]
  · simp only [if_neg hends] at hstep
    split at hstep <;> cases hstep

end Agree

/-! ## Up to the quote -/

/-- What `n` steps bring up, and the reader after them.  Where the text ends, the reader stays. -/
def advance : Nat → Reader → Reading
  | 0, r => ([], r)
  | n + 1, r =>
    match r.step? with
    | none => ([], r)
    | some (found, next) => (found ++ (advance n next).1, (advance n next).2)

/-- Everything that a reader brings up is what it does in some steps and what comes after. -/
theorem events_advance (n : Nat) (r : Reader) :
    r.events = (r.advance n).1 ++ (r.advance n).2.events := by
  induction n generalizing r with
  | zero => rfl
  | succ n ih =>
    rw [advance]
    split
    · rfl
    · next found next hstep =>
      rw [events_of_step? hstep, ih next, List.append_assoc]

/-- Steps leave less to read. -/
private theorem length_rest_advance_le (n : Nat) (r : Reader) :
    (r.advance n).2.rest.length ≤ r.rest.length := by
  induction n generalizing r with
  | zero => exact Nat.le_refl _
  | succ n ih =>
    rw [advance]
    split
    · exact Nat.le_refl _
    · next found next hstep => exact Nat.le_trans (ih next) (Nat.le_of_lt (step?_shorter hstep))

/-- All steps in front of the quote. -/
theorem advance_facing {before x u u' : List Char} {q : Char} (h : Lookalike before q u u')
    (n : Nat) {r : Reader} (hr : r.rest = x ++ q :: u) (hx : x <:+ before)
    (hlen : u.length < (r.advance n).2.rest.length) :
    ∃ y, (r.advance n).2.rest = y ++ q :: u ∧
      (r.facing (x ++ q :: u')).advance n =
        ((r.advance n).1, (r.advance n).2.facing (y ++ q :: u')) := by
  -- By induction on the steps: each leaves a later part of the text in front of the quote.
  induction n generalizing r x with
  | zero => exact ⟨x, hr, rfl⟩
  | succ n ih =>
    cases hstep : r.step? with
    | none =>
      simp only [advance, hstep, step?_facing_of_none h.isQuote hr hstep]
      exact ⟨x, hr, rfl⟩
    | some reading =>
      obtain ⟨found, next⟩ := reading
      simp only [advance, hstep] at hlen ⊢
      obtain ⟨y, hy, hnext, hfacing⟩ :=
        step?_agree h hr hx hstep (Nat.lt_of_lt_of_le hlen (length_rest_advance_le n next))
      obtain ⟨z, hlast, hadvance⟩ := ih hnext (hy.trans hx) hlen
      simp only [hfacing, hadvance]
      exact ⟨z, hlast, rfl⟩

end Reader

end ScopeTags.Source
