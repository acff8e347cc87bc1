import Mathlib

namespace Xv6.Shell

/-!
# Shell — tokens (`sh.c`)

A command line is an array of characters, and what counts is what stands before the first NUL.  A pointer
into it is a number.

* `gettoken`, `peek` — the scanner of the shell;
* `Tokens` — the tokens of a text: white space is left out, and a word is as long as possible;
* `Lex` — the tokens that `gettoken` returns one after another;
* `lex_of_tokens`, `Lex.tokens` — they are the tokens of the text;
* `Lex.word` — where the words are in the line.
-/

/-- The end of a string. -/
def NUL : Char := Char.ofNat 0

def whitespace : List Char := [' ', '\t', '\r', '\n', Char.ofNat 11]

def symbols : List Char := ['<', '|', '>', '&', ';', '(', ')']

/-- `strchr(whitespace, c)`. -/
def isSpace (c : Char) : Bool := whitespace.contains c

/-- Neither white space nor a symbol. -/
def isPlain (c : Char) : Bool := !whitespace.contains c && !symbols.contains c

/-- `*s`. -/
def deref (l : List Char) (s : Nat) : Char := l.getD s NUL

/-- `while(s < es && p(*s)) s++`. -/
def skip (p : Char → Bool) (l : List Char) (s : Nat) : Nat := s + ((l.drop s).takeWhile p).length

/-- What `gettoken` returns, `*q`, `*eq` and `*ps`. -/
structure Got where
  ret : Char
  q : Nat
  eq : Nat
  ps : Nat

/-- The token at `s`, and where it ends. -/
def scan (l : List Char) (s : Nat) : Char × Nat :=
  let c := deref l s
  if c = NUL then (c, s)
  else if c ∈ ['|', '(', ')', ';', '&', '<'] then (c, s + 1)
  else if c = '>' then
    if deref l (s + 1) = '>' then ('+', s + 2) else (c, s + 1)
  else ('a', skip isPlain l s)

/-- `gettoken`, for the line `l` up to `es`. -/
def gettoken (l : List Char) (ps : Nat) : Got :=
  let s := skip isSpace l ps
  let r := scan l s
  ⟨r.1, s, r.2, skip isSpace l r.2⟩

/-- `peek`: does the rest begin with one of `toks`? -/
def peek (l : List Char) (ps : Nat) (toks : List Char) : Bool × Nat :=
  let s := skip isSpace l ps
  (deref l s ≠ NUL && toks.contains (deref l s), s)

/-! ### The tokens of a text -/

/-- A word, or a symbol; `+` stands for `>>`. -/
inductive Tok (W : Type)
  | word (w : W)
  | sym (c : Char)

def Tok.map {V W : Type} (f : V → W) : Tok V → Tok W
  | .word w => .word (f w)
  | .sym c => .sym c

/-- A text begins with a token. -/
inductive Reads : List Char → Tok (List Char) → List Char → Prop
  | sym {c : Char} (d : List Char) : c ∈ symbols → c ≠ '>' → Reads (c :: d) (.sym c) d
  | append (d : List Char) : Reads ('>' :: '>' :: d) (.sym '+') d
  | greater (d : List Char) : d.head? ≠ some '>' → Reads ('>' :: d) (.sym '>') d
  | word {w d : List Char} : w ≠ [] → (∀ c ∈ w, isPlain c = true) → (∀ c ∈ d.head?, isPlain c = false) →
      Reads (w ++ d) (.word w) d

inductive Tokens : List Char → List (Tok (List Char)) → Prop
  | nil {u : List Char} : (∀ c ∈ u, isSpace c = true) → Tokens u []
  | cons {u d d' : List Char} {t : Tok (List Char)} {ts : List (Tok (List Char))} :
      (∀ c ∈ u, isSpace c = true) → Reads d t d' → Tokens d' ts → Tokens (u ++ d) (t :: ts)

/-- The characters of a word. -/
def slice (l : List Char) (w : Nat × Nat) : List Char := (l.drop w.1).take (w.2 - w.1)

/-- The token that `gettoken` has returned. -/
def Got.tok (g : Got) : Tok (Nat × Nat) := if g.ret = 'a' then .word (g.q, g.eq) else .sym g.ret

/-- The tokens that `gettoken` returns from `s` on. -/
inductive Lex (l : List Char) : Nat → List (Tok (Nat × Nat)) → Prop
  | nil {s : Nat} : s ≤ l.length → (gettoken l s).ret = NUL → Lex l s []
  | cons {s : Nat} {ts : List (Tok (Nat × Nat))} : (gettoken l s).ret ≠ NUL → Lex l (gettoken l s).ps ts →
      Lex l s ((gettoken l s).tok :: ts)

/-! ### Skipping characters -/

variable {l u d d' : List Char} {s s' : Nat} {p : Char → Bool} {c : Char} {t : Tok (List Char)}
  {ts us : List (Tok (Nat × Nat))}

theorem deref_eq : deref l s = (l.drop s).headD NUL := by
  rw [deref, List.headD_eq_head?_getD, List.head?_drop, List.getD_eq_getElem?_getD]

theorem drop_skip : l.drop (skip p l s) = (l.drop s).dropWhile p := by
  rw [skip, ← List.drop_drop]
  generalize l.drop s = d
  have hdrop : (d.takeWhile p ++ d.dropWhile p).drop (d.takeWhile p).length = d.dropWhile p := List.drop_left ..
  rwa [List.takeWhile_append_dropWhile] at hdrop

theorem skip_le (hs : s ≤ l.length) : skip p l s ≤ l.length := by
  have hlen := (List.takeWhile_prefix p (l := l.drop s)).length_le
  rw [List.length_drop] at hlen
  rw [skip]
  omega

theorem dropWhile_head (h : d.dropWhile p = c :: d') : p c = false := by
  have hhead := List.head?_dropWhile_not p d
  rwa [h, List.head?_cons] at hhead

theorem skip_skip : skip p l (skip p l s) = skip p l s := by
  rw [skip, drop_skip]
  cases h : (l.drop s).dropWhile p with
  | nil => rfl
  | cons c d => rw [List.takeWhile_cons_of_neg (by rw [dropWhile_head h]; decide), List.length_nil, Nat.add_zero]

theorem gettoken_tok : (gettoken l s).tok = if (scan l (skip isSpace l s)).1 = 'a'
    then .word (skip isSpace l s, (scan l (skip isSpace l s)).2)
    else .sym (scan l (skip isSpace l s)).1 := rfl

theorem gettoken_skip : gettoken l (skip isSpace l s) = gettoken l s := by
  rw [gettoken, skip_skip, gettoken]

theorem dropWhile_of_head (h : p c = false) : (c :: d).dropWhile p = c :: d :=
  List.dropWhile_cons_of_neg (by rw [h]; decide)

/-! ### Tokens are read -/

/-- Characters in a list are checked one after another. -/
theorem forall_mem {P : Char → Prop} [DecidablePred P] (h : d.all (fun c => P c) = true) : ∀ c ∈ d, P c :=
  fun c hc => of_decide_eq_true (List.all_eq_true.mp h c hc)

theorem isSpace_of_symbol (h : c ∈ symbols) : isSpace c = false := by
  have hall : ∀ c ∈ symbols, isSpace c = false := forall_mem (by decide)
  exact hall c h

theorem isPlain_of_symbol (h : c ∈ symbols) : isPlain c = false := by
  have hall : ∀ c ∈ symbols, isPlain c = false := forall_mem (by decide)
  exact hall c h

theorem isSpace_of_plain (h : isPlain c = true) : isSpace c = false := by
  unfold isPlain at h
  unfold isSpace
  rw [Bool.and_eq_true] at h
  exact Bool.not_eq_true' _ |>.mp h.1

theorem not_symbol_of_plain (h : isPlain c = true) : c ∉ symbols := fun hc => by
  rw [isPlain_of_symbol hc] at h
  cases h

/-- A token does not begin with white space. -/
theorem Reads.head (h : Reads d t d') : ∃ c e, d = c :: e ∧ isSpace c = false := by
  cases h with
  | sym _ hc => exact ⟨_, _, rfl, isSpace_of_symbol hc⟩
  | append => exact ⟨_, _, rfl, rfl⟩
  | greater => exact ⟨_, _, rfl, rfl⟩
  | @word w _ hw hplain =>
    cases w with
    | nil => exact absurd rfl hw
    | cons c w => exact ⟨c, _, rfl, isSpace_of_plain (hplain c List.mem_cons_self)⟩

theorem Reads.dropWhile (h : Reads d t d') : d.dropWhile isSpace = d := by
  obtain ⟨c, e, rfl, hc⟩ := h.head
  exact dropWhile_of_head hc

/-- What is left of a text is white space, or it begins with a token. -/
theorem exists_reads (d : List Char) :
    (∀ c ∈ d, isSpace c = true) ∨ ∃ t d', Reads (d.dropWhile isSpace) t d' := by
  cases h : d.dropWhile isSpace with
  | nil => exact .inl (List.dropWhile_eq_nil_iff.mp h)
  | cons c e =>
    right
    by_cases hsym : c ∈ symbols
    · by_cases hgt : c = '>'
      · subst hgt
        by_cases he : e.head? = some '>'
        · obtain ⟨e, rfl⟩ := List.head?_eq_some_iff.mp he
          exact ⟨_, _, .append e⟩
        · exact ⟨_, _, .greater e he⟩
      · exact ⟨_, _, .sym e hsym hgt⟩
    · have hspace : isSpace c = false := dropWhile_head h
      have hplain : isPlain c = true := by
        unfold isSpace at hspace
        rw [isPlain, hspace, Bool.not_false, Bool.true_and, Bool.not_eq_true', List.contains_eq_mem]
        exact decide_eq_false hsym
      refine ⟨.word ((c :: e).takeWhile isPlain), (c :: e).dropWhile isPlain, ?_⟩
      have hr : Reads ((c :: e).takeWhile isPlain ++ (c :: e).dropWhile isPlain)
          (.word ((c :: e).takeWhile isPlain)) ((c :: e).dropWhile isPlain) := by
        refine .word ?_ (fun a ha => List.mem_takeWhile_imp ha) fun a ha => ?_
        · rw [List.takeWhile_cons_of_pos hplain]
          exact List.cons_ne_nil _ _
        · obtain ⟨e', he'⟩ := List.head?_eq_some_iff.mp ha
          exact dropWhile_head he'
      rwa [List.takeWhile_append_dropWhile] at hr

theorem deref_of_drop (h : l.drop s = c :: d) : deref l s = c := by
  rw [deref_eq, h, List.headD_cons]

theorem drop_succ (h : l.drop s = c :: d) : l.drop (s + 1) = d := by
  rw [← List.drop_drop, h, List.drop_one, List.tail_cons]

/-- The text at `s` is a word up to `eq`. -/
theorem slice_skip (p : Char → Bool) : slice l (s, skip p l s) = (l.drop s).takeWhile p := by
  rw [slice, skip, Nat.add_sub_cancel_left]
  generalize l.drop s = d
  have htake : (d.takeWhile p ++ d.dropWhile p).take (d.takeWhile p).length = d.takeWhile p := List.take_left ..
  rwa [List.takeWhile_append_dropWhile] at htake

theorem symbol_code (hc : c ∈ symbols) (hgt : c ≠ '>') :
    c ≠ NUL ∧ c ∈ ['|', '(', ')', ';', '&', '<'] ∧ c ≠ 'a' := by
  have hall : ∀ c ∈ symbols, c ≠ '>' → c ≠ NUL ∧ c ∈ ['|', '(', ')', ';', '&', '<'] ∧ c ≠ 'a' :=
    forall_mem (by decide)
  exact hall c hc hgt

theorem plain_code (hc : isPlain c = true) : c ∉ ['|', '(', ')', ';', '&', '<'] ∧ c ≠ '>' := by
  have hsym := not_symbol_of_plain hc
  have hsub : ∀ c ∈ ['|', '(', ')', ';', '&', '<'], c ∈ symbols := forall_mem (by decide)
  exact ⟨fun hm => hsym (hsub c hm), fun hgt => hsym (hgt ▸ by decide)⟩

theorem mem_of_drop (h : l.drop s = d) (hc : c ∈ d) : c ∈ l := List.mem_of_mem_drop (h ▸ hc)

/-- What `scan` returns for the text of a token. -/
theorem scan_of_reads (hl : NUL ∉ l) (hd : l.drop s = d) (hr : Reads d t d') : (scan l s).1 ≠ NUL ∧
    (if (scan l s).1 = 'a' then Tok.word (slice l (s, (scan l s).2)) else .sym (scan l s).1) = t ∧
    l.drop (scan l s).2 = d' := by
  cases hr with
  | @sym c _ hc hgt =>
    obtain ⟨hnul, hcode, ha⟩ := symbol_code hc hgt
    have hscan : scan l s = (c, s + 1) := by
      rw [scan, deref_of_drop hd, if_neg hnul, if_pos hcode]
    rw [hscan]
    exact ⟨hnul, if_neg ha, drop_succ hd⟩
  | append =>
    have hscan : scan l s = ('+', s + 2) := by
      rw [scan, deref_of_drop hd, if_neg (by decide), if_neg (by decide), if_pos rfl,
        if_pos (deref_of_drop (drop_succ hd))]
    rw [hscan]
    exact ⟨(by decide : '+' ≠ NUL), if_neg (by decide : ¬ '+' = 'a'), drop_succ (drop_succ hd)⟩
  | greater _ hne =>
    have hderef : deref l (s + 1) ≠ '>' := fun heq => hne (by
      rw [deref_eq, drop_succ hd] at heq
      cases d' with
      | nil => exact absurd heq (by decide)
      | cons c d => exact congrArg some heq)
    have hscan : scan l s = ('>', s + 1) := by
      rw [scan, deref_of_drop hd, if_neg (by decide), if_neg (by decide), if_pos rfl, if_neg hderef]
    rw [hscan]
    exact ⟨(by decide : '>' ≠ NUL), if_neg (by decide : ¬ '>' = 'a'), drop_succ hd⟩
  | @word w _ hw hplain hend =>
    have hnil : d'.takeWhile isPlain = [] ∧ d'.dropWhile isPlain = d' := by
      cases d' with
      | nil => exact ⟨rfl, rfl⟩
      | cons c d =>
        have hc := hend c rfl
        exact ⟨List.takeWhile_cons_of_neg (by rw [hc]; decide), dropWhile_of_head hc⟩
    have htake : (w ++ d').takeWhile isPlain = w := by
      rw [List.takeWhile_append_of_pos hplain, hnil.1, List.append_nil]
    have hdrop : (w ++ d').dropWhile isPlain = d' := by
      rw [List.dropWhile_append_of_pos hplain, hnil.2]
    have hscan : scan l s = ('a', skip isPlain l s) := by
      cases w with
      | nil => exact absurd rfl hw
      | cons c w =>
        obtain ⟨hcode, hgt⟩ := plain_code (hplain c List.mem_cons_self)
        have hnul : c ≠ NUL := fun heq => hl (heq ▸ mem_of_drop hd List.mem_cons_self)
        rw [scan, deref_of_drop hd, if_neg hnul, if_neg hcode, if_neg hgt]
    rw [hscan]
    refine ⟨(by decide : 'a' ≠ NUL), ?_, ?_⟩
    · rw [if_pos rfl, slice_skip, hd, htake]
    · rw [drop_skip, hd, hdrop]

/-- `gettoken` reads the first token, and the white space behind it. -/
theorem gettoken_of_reads (hl : NUL ∉ l) (hd : (l.drop s).dropWhile isSpace = d) (hr : Reads d t d') :
    (gettoken l s).ret ≠ NUL ∧ (gettoken l s).tok.map (slice l) = t ∧
      l.drop (gettoken l s).ps = d'.dropWhile isSpace := by
  rw [← drop_skip] at hd
  obtain ⟨hret, htok, hdrop⟩ := scan_of_reads hl hd hr
  refine ⟨hret, ?_, ?_⟩
  · rw [← htok]
    rw [gettoken_tok]
    by_cases ha : (scan l (skip isSpace l s)).1 = 'a'
    · rw [if_pos ha, if_pos ha]
      rfl
    · rw [if_neg ha, if_neg ha]
      rfl
  · show l.drop (skip isSpace l _) = _
    rw [drop_skip, hdrop]

theorem deref_lt (h : deref l s ≠ NUL) : s < l.length := by
  by_contra hge
  refine h ?_
  rw [deref, List.getD_eq_getElem?_getD, List.getElem?_eq_none (not_lt.mp hge)]
  rfl

theorem scan_le (hs : s ≤ l.length) : (scan l s).2 ≤ l.length := by
  rw [scan]
  by_cases hnul : deref l s = NUL
  · rwa [if_pos hnul]
  · have hlt := deref_lt hnul
    rw [if_neg hnul]
    split
    · exact hlt
    · split
      · split
        · rename_i hgt
          exact deref_lt (hgt ▸ (by decide : '>' ≠ NUL))
        · exact hlt
      · exact skip_le hs

theorem gettoken_le (hs : s ≤ l.length) : (gettoken l s).ps ≤ l.length := skip_le (scan_le (skip_le hs))

/-- At the end `gettoken` returns 0. -/
theorem gettoken_end (hd : ∀ c ∈ l.drop s, isSpace c = true) : (gettoken l s).ret = NUL := by
  have hderef : deref l (skip isSpace l s) = NUL := by
    rw [deref_eq, drop_skip, List.dropWhile_eq_nil_iff.mpr hd]
    rfl
  show (scan l (skip isSpace l s)).1 = NUL
  rw [scan, hderef, if_pos rfl]

/-- The scanner finds the tokens of the text. -/
theorem lex_of_tokens {vs : List (Tok (List Char))} (hl : NUL ∉ l) (h : Tokens d vs)
    (hs : s ≤ l.length) (hd : (l.drop s).dropWhile isSpace = d.dropWhile isSpace) :
    ∃ ts, Lex l s ts ∧ ts.map (Tok.map (slice l)) = vs := by
  induction h generalizing s with
  | nil hu =>
    refine ⟨[], .nil hs (gettoken_end ?_), rfl⟩
    rw [List.dropWhile_eq_nil_iff.mpr hu] at hd
    exact List.dropWhile_eq_nil_iff.mp hd
  | cons hu hr _ ih =>
    rw [List.dropWhile_append_of_pos hu, hr.dropWhile] at hd
    obtain ⟨hret, htok, hdrop⟩ := gettoken_of_reads hl hd hr
    obtain ⟨ts, hlex, hmap⟩ := ih (gettoken_le hs) (by rw [hdrop, List.dropWhile_idempotent])
    exact ⟨_, .cons hret hlex, by rw [List.map_cons, htok, hmap]⟩

theorem Tokens.space {vs : List (Tok (List Char))} (h : Tokens (d.dropWhile isSpace) vs) : Tokens d vs := by
  have htake : ∀ c ∈ d.takeWhile isSpace, isSpace c = true := fun c hc => List.mem_takeWhile_imp hc
  rw [← List.takeWhile_append_dropWhile (p := isSpace) (l := d)]
  generalize d.dropWhile isSpace = e at h
  cases h with
  | nil hu => exact .nil (List.forall_mem_append.mpr ⟨htake, hu⟩)
  | cons hu hr ht =>
    rw [← List.append_assoc]
    exact .cons (List.forall_mem_append.mpr ⟨htake, hu⟩) hr ht

/-- What the scanner finds are the tokens of the text. -/
theorem Lex.tokens (h : Lex l s ts) (hl : NUL ∉ l) : Tokens (l.drop s) (ts.map (Tok.map (slice l))) := by
  induction h with
  | @nil s _ hret =>
    rcases exists_reads (l.drop s) with hspace | ⟨t, d', hr⟩
    · exact .nil hspace
    · exact absurd hret (gettoken_of_reads hl rfl hr).1
  | @cons s ts hret _ ih =>
    rcases exists_reads (l.drop s) with hspace | ⟨t, d', hr⟩
    · exact absurd (gettoken_end hspace) hret
    · obtain ⟨-, htok, hdrop⟩ := gettoken_of_reads hl rfl hr
      rw [hdrop] at ih
      rw [List.map_cons, htok]
      exact Tokens.space (.cons (u := []) nofun hr ih.space)

theorem Reads.length_lt (h : Reads d t d') : d'.length < d.length := by
  cases h with
  | @word w _ hw =>
    have hpos := List.length_pos_of_ne_nil hw
    rw [List.length_append]
    omega
  | _ =>
    simp only [List.length_cons]
    omega

theorem Tokens.length_le {vs : List (Tok (List Char))} (h : Tokens d vs) : vs.length ≤ d.length := by
  induction h with
  | nil => exact Nat.zero_le _
  | cons _ hr _ ih =>
    have hlt := hr.length_lt
    rw [List.length_cons, List.length_append]
    omega

theorem Lex.length_le (h : Lex l s ts) (hl : NUL ∉ l) : ts.length ≤ l.length := by
  have hlen := (h.tokens hl).length_le
  rw [List.length_map, List.length_drop] at hlen
  omega

/-- Every text has tokens. -/
theorem exists_tokens (d : List Char) : ∃ vs, Tokens d vs := by
  induction hn : d.length using Nat.strong_induction_on generalizing d with
  | _ n ih =>
    rcases exists_reads d with hspace | ⟨t, d', hr⟩
    · exact ⟨[], .nil hspace⟩
    · have hlt := hr.length_lt
      have hle : (d.dropWhile isSpace).length ≤ d.length := (List.dropWhile_suffix isSpace).length_le
      obtain ⟨vs, hvs⟩ := ih d'.length (by omega) d' rfl
      exact ⟨t :: vs, Tokens.space (.cons (u := []) nofun hr hvs)⟩

theorem exists_lex (hl : NUL ∉ l) (hs : s ≤ l.length) : ∃ ts, Lex l s ts := by
  obtain ⟨vs, hvs⟩ := exists_tokens (l.drop s)
  obtain ⟨ts, hts, -⟩ := lex_of_tokens hl hvs hs rfl
  exact ⟨ts, hts⟩

/-! ### Where the words are -/

/-- A character that can be in a word. -/
def Inside (l : List Char) (i : Nat) : Prop := i < l.length ∧ isPlain (deref l i) = true

theorem deref_getElem (h : s < l.length) : deref l s = l[s] := by
  rw [deref, List.getD_eq_getElem?_getD, List.getElem?_eq_getElem h]
  rfl

theorem skip_inside {i : Nat} (hi : s ≤ i) (hi' : i < skip isPlain l s) : Inside l i := by
  obtain ⟨k, rfl⟩ := Nat.exists_eq_add_of_le hi
  have hk : k < ((l.drop s).takeWhile isPlain).length := Nat.lt_of_add_lt_add_left hi'
  have hpre := List.takeWhile_prefix isPlain (l := l.drop s)
  have hlen := hk.trans_le hpre.length_le
  have hlt : s + k < l.length := by
    rw [List.length_drop] at hlen
    omega
  have hplain := List.mem_takeWhile_imp (List.getElem_mem hk)
  rw [hpre.getElem hk, List.getElem_drop] at hplain
  refine ⟨hlt, ?_⟩
  rw [deref_getElem hlt]
  exact hplain

theorem skip_end : ¬ Inside l (skip isPlain l s) := by
  intro ⟨hlt, hplain⟩
  have hdrop := List.drop_eq_getElem_cons hlt
  rw [drop_skip] at hdrop
  have hhead := dropWhile_head hdrop
  rw [deref_getElem hlt, hhead] at hplain
  cases hplain

/-- What `scan` does with the character at `s`. -/
theorem scan_cases (l : List Char) (s : Nat) :
    deref l s = NUL ∧ (scan l s).1 = NUL ∨ deref l s ≠ NUL ∧
      (deref l s ∈ symbols ∧ (scan l s).1 ≠ NUL ∧ (scan l s).1 ≠ 'a' ∧
          ((scan l s).1 = deref l s ∨ deref l s = '>' ∧ (scan l s).1 = '+') ∨
        deref l s ∉ symbols ∧ (scan l s).1 = 'a' ∧ (scan l s).2 = skip isPlain l s) := by
  rw [scan]
  by_cases hnul : deref l s = NUL
  · exact .inl ⟨hnul, by rw [if_pos hnul, hnul]⟩
  · refine .inr ⟨hnul, ?_⟩
    rw [if_neg hnul]
    by_cases hcode : deref l s ∈ ['|', '(', ')', ';', '&', '<']
    · have hall : ∀ c ∈ ['|', '(', ')', ';', '&', '<'], c ∈ symbols ∧ c ≠ 'a' := forall_mem (by decide)
      rw [if_pos hcode]
      exact .inl ⟨(hall _ hcode).1, hnul, (hall _ hcode).2, .inl rfl⟩
    · rw [if_neg hcode]
      by_cases hgt : deref l s = '>'
      · rw [if_pos hgt, hgt]
        refine .inl ⟨by decide, ?_⟩
        split
        · exact ⟨(by decide : '+' ≠ NUL), (by decide : '+' ≠ 'a'), .inr ⟨rfl, rfl⟩⟩
        · exact ⟨(by decide : '>' ≠ NUL), (by decide : '>' ≠ 'a'), .inl rfl⟩
      · rw [if_neg hgt]
        refine .inr ⟨fun hsym => ?_, rfl, rfl⟩
        have hall : ∀ c ∈ symbols, c ∈ ['|', '(', ')', ';', '&', '<'] ∨ c = '>' := forall_mem (by decide)
        exact (hall _ hsym).elim hcode hgt

/-- At the end of white space there is none. -/
theorem skip_space (hne : deref l (skip isSpace l s) ≠ NUL) : isSpace (deref l (skip isSpace l s)) = false := by
  rw [deref_eq, drop_skip] at hne ⊢
  cases h : (l.drop s).dropWhile isSpace with
  | nil =>
    rw [h] at hne
    exact absurd rfl hne
  | cons c d => exact dropWhile_head h

/-- A word that `gettoken` returns. -/
theorem Got.word {w : Nat × Nat} (h : (gettoken l s).tok = .word w) :
    w.1 < w.2 ∧ (∀ i, w.1 ≤ i → i < w.2 → Inside l i) ∧ ¬ Inside l w.2 := by
  have hret : (scan l (skip isSpace l s)).1 = 'a' := by
    by_contra hne
    rw [gettoken_tok, if_neg hne] at h
    cases h
  rw [gettoken_tok, if_pos hret] at h
  obtain rfl := Tok.word.inj h
  rcases scan_cases l (skip isSpace l s) with ⟨-, hnul⟩ | ⟨hnul, ⟨-, -, ha, -⟩ | ⟨hsym, -, hend⟩⟩
  · rw [hret] at hnul
    exact absurd hnul (by decide)
  · exact absurd hret ha
  · have hspace := skip_space hnul
    have hin : Inside l (skip isSpace l s) := by
      refine ⟨deref_lt hnul, ?_⟩
      generalize deref l (skip isSpace l s) = c at hspace hsym
      unfold isSpace at hspace
      rw [isPlain, hspace, Bool.not_false, Bool.true_and, Bool.not_eq_true', List.contains_eq_mem]
      exact decide_eq_false hsym
    show skip isSpace l s < (scan l (skip isSpace l s)).2 ∧
      (∀ i, skip isSpace l s ≤ i → i < (scan l (skip isSpace l s)).2 → Inside l i) ∧
      ¬ Inside l (scan l (skip isSpace l s)).2
    rw [hend]
    refine ⟨lt_of_le_of_ne (Nat.le_add_right ..) fun heq => ?_, fun i hi hi' => skip_inside hi hi', skip_end⟩
    rw [heq] at hin
    exact skip_end hin

/-- The words are maximal. -/
theorem Lex.word {w : Nat × Nat} (h : Lex l s ts) (hw : .word w ∈ ts) :
    w.1 < w.2 ∧ (∀ i, w.1 ≤ i → i < w.2 → Inside l i) ∧ ¬ Inside l w.2 := by
  induction h with
  | nil => cases hw
  | cons _ _ ih =>
    rcases List.mem_cons.mp hw with heq | hw
    · exact Got.word heq.symm
    · exact ih hw

theorem Lex.skip (h : Lex l s ts) : Lex l (Shell.skip isSpace l s) ts := by
  cases h with
  | nil hs hret => exact .nil (skip_le hs) (gettoken_skip.symm ▸ hret)
  | cons hret hlex =>
    rw [← gettoken_skip] at hret hlex ⊢
    exact .cons hret hlex

/-- The first token begins with one of the symbols. -/
def Starts {W : Type} (toks : List Char) (ts : List (Tok W)) : Prop :=
  ∃ c us, ts = .sym c :: us ∧ (c ∈ toks ∨ c = '+' ∧ '>' ∈ toks)

/-- `peek` looks at the first token. -/
theorem Lex.peek (h : Lex l s ts) (toks : List Char) (htoks : ∀ c ∈ toks, c ∈ symbols) :
    ∃ b s', Shell.peek l s toks = (b, s') ∧ Lex l s' ts ∧ (b = true ↔ Starts toks ts) := by
  refine ⟨_, _, rfl, h.skip, ?_⟩
  have hpeek : (deref l (Shell.skip isSpace l s) ≠ NUL && toks.contains (deref l (Shell.skip isSpace l s))) = true ↔
      deref l (Shell.skip isSpace l s) ≠ NUL ∧ deref l (Shell.skip isSpace l s) ∈ toks := by
    rw [Bool.and_eq_true, decide_eq_true_eq, List.contains_eq_mem, decide_eq_true_eq]
  rw [hpeek]
  have hret : (gettoken l s).ret = (scan l (Shell.skip isSpace l s)).1 := rfl
  have htok := gettoken_tok (l := l) (s := s)
  rcases scan_cases l (Shell.skip isSpace l s) with ⟨hnul, hend⟩ | ⟨hnul, ⟨hsym, hend, ha, hcode⟩ | ⟨hsym, ha, -⟩⟩
  · cases h with
    | nil => exact ⟨fun h => absurd hnul h.1, fun ⟨c, us, h, _⟩ => by cases h⟩
    | cons hne => exact absurd hend hne
  · cases h with
    | nil _ hnul => exact absurd hnul hend
    | cons =>
      rw [htok, if_neg ha]
      have hplus : '+' ∉ symbols := by decide
      constructor
      · intro ⟨_, hmem⟩
        rcases hcode with heq | ⟨hgt, heq⟩
        · exact ⟨_, _, rfl, .inl (heq ▸ hmem)⟩
        · exact ⟨_, _, rfl, .inr ⟨heq, hgt ▸ hmem⟩⟩
      · rintro ⟨c, us, heq, hmem⟩
        obtain ⟨rfl, -⟩ := (List.cons.inj heq).imp_left Tok.sym.inj
        refine ⟨hnul, ?_⟩
        rcases hcode with heq | ⟨hgt, heq⟩
        · rcases hmem with hmem | ⟨hc, -⟩
          · exact heq ▸ hmem
          · exact absurd (hc ▸ heq ▸ hsym) hplus
        · rcases hmem with hmem | ⟨-, hmem⟩
          · exact absurd (htoks _ (heq ▸ hmem)) hplus
          · exact hgt ▸ hmem
  · refine ⟨fun h => absurd (htoks _ h.2) hsym, fun ⟨c, us, heq, _⟩ => ?_⟩
    cases h with
    | nil => cases heq
    | cons =>
      rw [htok, if_pos ha] at heq
      cases heq

theorem Lex.word_ret {w : Nat × Nat} (h : Lex l s (.word w :: ts)) :
    (gettoken l s).ret = 'a' ∧ ((gettoken l s).q, (gettoken l s).eq) = w ∧ Lex l (gettoken l s).ps ts := by
  generalize hts : Tok.word w :: ts = us at h
  cases h with
  | nil => cases hts
  | cons _ hlex =>
    obtain ⟨htok, rfl⟩ := List.cons.inj hts
    rw [Got.tok] at htok
    split at htok
    · rename_i hret
      exact ⟨hret, (Tok.word.inj htok).symm, hlex⟩
    · cases htok

theorem Lex.sym_ret (h : Lex l s (.sym c :: ts)) :
    (gettoken l s).ret = c ∧ c ≠ 'a' ∧ c ≠ NUL ∧ Lex l (gettoken l s).ps ts := by
  generalize hts : Tok.sym c :: ts = us at h
  cases h with
  | nil => cases hts
  | cons hne hlex =>
    obtain ⟨htok, rfl⟩ := List.cons.inj hts
    rw [Got.tok] at htok
    split at htok
    · cases htok
    · rename_i hret
      obtain rfl := Tok.sym.inj htok
      exact ⟨rfl, hret, hne, hlex⟩

theorem Lex.of_word (h : Lex l s ts) (hret : (gettoken l s).ret = 'a') :
    ∃ us, ts = .word ((gettoken l s).q, (gettoken l s).eq) :: us ∧ Lex l (gettoken l s).ps us := by
  cases h with
  | nil _ hnul =>
    rw [hret] at hnul
    exact absurd hnul (by decide)
  | cons _ hlex =>
    refine ⟨_, ?_, hlex⟩
    rw [Got.tok, if_pos hret]

theorem Lex.of_end (h : Lex l s ts) (hret : (gettoken l s).ret = NUL) : ts = [] := by
  cases h with
  | nil => rfl
  | cons hne => exact absurd hret hne

/-- At the end there is only white space. -/
theorem Lex.at_end (h : Lex l s []) : deref l (Shell.skip isSpace l s) = NUL ∧ s ≤ l.length := by
  cases h with
  | nil hs hret =>
    rcases scan_cases l (Shell.skip isSpace l s) with ⟨hnul, -⟩ | ⟨-, ⟨-, hne, -⟩ | ⟨-, ha, -⟩⟩
    · exact ⟨hnul, hs⟩
    · exact absurd hret hne
    · exact absurd (ha.symm.trans hret) (by decide)

theorem Lex.end_ps (h : Lex l s []) : Lex l (gettoken l s).ps [] := by
  have hps : (gettoken l s).ps = Shell.skip isSpace l s := by
    show Shell.skip isSpace l (scan l (Shell.skip isSpace l s)).2 = _
    rw [scan, h.at_end.1, if_pos rfl, skip_skip]
  rw [hps]
  exact h.skip

theorem Lex.end_eq (h : Lex l s []) (hl : NUL ∉ l) : Shell.skip isSpace l s = l.length := by
  obtain ⟨hnul, hs⟩ := h.at_end
  refine le_antisymm (skip_le hs) (not_lt.mp fun hlt => hl ?_)
  rw [deref_getElem hlt] at hnul
  exact hnul ▸ List.getElem_mem hlt

theorem Lex.end_ret (h : Lex l s []) : (gettoken l s).ret = NUL := by
  cases h with
  | nil _ hret => exact hret

end Xv6.Shell
