import Xv6.Shell.Command

namespace Xv6.Shell

open Xv6.Lib

/-!
# Shell — lines and commands (`sh.c`)

* `nulterminate_spec` — behind a word there is room for its NUL: no other word is cut off;
* `shell_reads_commands` — `parsecmd` gives the command of the line, with its strings, if it has one;
* `commands_are_read_back` — every command can be written, and it is read again.
-/

variable {W V : Type}

/-- The string at `q`. -/
def cstr (buf : List Char) (q : Nat) : List Char := (buf.drop q).takeWhile (· ≠ NUL)

def Cmd.map (f : V → W) : Cmd V → Cmd W
  | .exec argv => .exec (argv.map f)
  | .redir cmd file mode fd => .redir (cmd.map f) (f file) mode fd
  | .pipe left right => .pipe (left.map f) (right.map f)
  | .list left right => .list (left.map f) (right.map f)
  | .back cmd => .back (cmd.map f)

/-- All strings of a command. -/
def Cmd.words : Cmd W → List W
  | .exec argv => argv
  | .redir cmd file _ _ => cmd.words ++ [file]
  | .pipe left right => left.words ++ right.words
  | .list left right => left.words ++ right.words
  | .back cmd => cmd.words

variable {f g : V → W} {cmd : Cmd V} {rs : List (Char × V)} {v : Level}

theorem map_congr (h : ∀ w ∈ cmd.words, f w = g w) : cmd.map f = cmd.map g := by
  induction cmd with
  | exec argv => exact congrArg Cmd.exec (List.map_congr_left h)
  | redir cmd file mode fd ih =>
    rw [Cmd.words, List.forall_mem_append, List.forall_mem_singleton] at h
    rw [Cmd.map, Cmd.map, ih h.1, h.2]
  | pipe left right ihl ihr =>
    rw [Cmd.words, List.forall_mem_append] at h
    rw [Cmd.map, Cmd.map, ihl h.1, ihr h.2]
  | list left right ihl ihr =>
    rw [Cmd.words, List.forall_mem_append] at h
    rw [Cmd.map, Cmd.map, ihl h.1, ihr h.2]
  | back cmd ih => exact congrArg Cmd.back (ih h)

theorem map_redirect (c : Char) (w : V) : (redirect c cmd w).map f = redirect c (cmd.map f) (f w) := by
  unfold redirect
  split <;> rfl

theorem map_redirs : (cmd.redirs rs).map f = (cmd.map f).redirs (rs.map fun r => (r.1, f r.2)) := by
  induction rs generalizing cmd with
  | nil => rfl
  | cons r rs ih =>
    show ((redirect r.1 cmd r.2).redirs rs).map f = (redirect r.1 (cmd.map f) (f r.2)).redirs _
    rw [ih, map_redirect]

theorem map_backs (k : Nat) : (cmd.backs k).map f = (cmd.map f).backs k := by
  induction k generalizing cmd with
  | zero => rfl
  | succ k ih => exact ih

/-! ### The grammar does not look at the words -/

theorem Redirs.map {ts : List (Tok V)} (h : Redirs ts rs) :
    Redirs (ts.map (Tok.map f)) (rs.map fun r => (r.1, f r.2)) := by
  induction h with
  | nil => exact .nil
  | cons hc _ ih => exact .cons hc ih

theorem Items.map {ts : List (Tok V)} {argv : List V} (h : Items ts argv rs) :
    Items (ts.map (Tok.map f)) (argv.map f) (rs.map fun r => (r.1, f r.2)) := by
  induction h with
  | nil => exact .nil
  | word _ ih => exact .word ih
  | redir hc _ ih => exact .redir hc ih

theorem Derives.map {ts : List (Tok V)} (h : Derives v ts cmd) (f : V → W) :
    Derives v (ts.map (Tok.map f)) (cmd.map f) := by
  induction h with
  | line k _ ih =>
    rw [map_backs, List.map_append, List.map_replicate]
    exact .line k ih
  | list k _ _ ih₁ ih₂ =>
    rw [List.map_append, List.map_append, List.map_replicate, Cmd.map, map_backs]
    exact .list k ih₁ ih₂
  | one _ ih => exact .one ih
  | pipe _ _ ih₁ ih₂ =>
    rw [List.map_append]
    exact .pipe ih₁ ih₂
  | exec hi hmax =>
    rw [map_redirs]
    exact .exec hi.map (by rwa [List.length_map])
  | block _ hr ih =>
    rw [map_redirs, List.map_append]
    exact .block ih hr.map

theorem map_eq_sym {t : Tok V} {c : Char} (h : t.map f = .sym c) : t = .sym c := by
  cases t with
  | word => cases h
  | sym c' => exact congrArg Tok.sym (Tok.sym.inj h)

theorem map_eq_word {t : Tok V} {w : W} (h : t.map f = .word w) : ∃ u, t = .word u ∧ f u = w := by
  cases t with
  | word u => exact ⟨u, rfl, Tok.word.inj h⟩
  | sym => cases h

theorem map_eq_backs {ts : List (Tok V)} {k : Nat} (h : ts.map (Tok.map f) = List.replicate k (.sym '&')) :
    ts = List.replicate k (.sym '&') := by
  refine List.eq_replicate_iff.mpr ⟨by rw [← List.length_map (Tok.map f), h, List.length_replicate], fun t ht => ?_⟩
  exact map_eq_sym (List.eq_of_mem_replicate (h ▸ List.mem_map_of_mem ht))

theorem Redirs.lift {us : List (Tok W)} {rs : List (Char × W)} (h : Redirs us rs) {ts : List (Tok V)}
    (hts : ts.map (Tok.map f) = us) : ∃ rs', Redirs ts rs' ∧ rs'.map (fun r => (r.1, f r.2)) = rs := by
  induction h generalizing ts with
  | nil =>
    obtain rfl := List.map_eq_nil_iff.mp hts
    exact ⟨[], .nil, rfl⟩
  | cons hc _ ih =>
    obtain ⟨t, ts₁, rfl, hsym, hts₁⟩ := List.map_eq_cons_iff.mp hts
    obtain ⟨t', ts₂, rfl, hword, hts₂⟩ := List.map_eq_cons_iff.mp hts₁
    obtain rfl := map_eq_sym hsym
    obtain ⟨w, rfl, rfl⟩ := map_eq_word hword
    obtain ⟨rs', hr, rfl⟩ := ih hts₂
    exact ⟨_ :: rs', .cons hc hr, rfl⟩

theorem Items.lift {us : List (Tok W)} {argv : List W} {rs : List (Char × W)} (h : Items us argv rs)
    {ts : List (Tok V)} (hts : ts.map (Tok.map f) = us) :
    ∃ argv' rs', Items ts argv' rs' ∧ argv'.map f = argv ∧ rs'.map (fun r => (r.1, f r.2)) = rs := by
  induction h generalizing ts with
  | nil =>
    obtain rfl := List.map_eq_nil_iff.mp hts
    exact ⟨[], [], .nil, rfl, rfl⟩
  | word _ ih =>
    obtain ⟨t, ts₁, rfl, hword, hts₁⟩ := List.map_eq_cons_iff.mp hts
    obtain ⟨w, rfl, rfl⟩ := map_eq_word hword
    obtain ⟨argv', rs', hi, rfl, rfl⟩ := ih hts₁
    exact ⟨w :: argv', rs', .word hi, rfl, rfl⟩
  | redir hc _ ih =>
    obtain ⟨t, ts₁, rfl, hsym, hts₁⟩ := List.map_eq_cons_iff.mp hts
    obtain ⟨t', ts₂, rfl, hword, hts₂⟩ := List.map_eq_cons_iff.mp hts₁
    obtain rfl := map_eq_sym hsym
    obtain ⟨w, rfl, rfl⟩ := map_eq_word hword
    obtain ⟨argv', rs', hi, rfl, rfl⟩ := ih hts₂
    exact ⟨argv', _ :: rs', .redir hc hi, rfl, rfl⟩

/-- A derivation for the strings is one for the words. -/
theorem Derives.lift {us : List (Tok W)} {q : Cmd W} (h : Derives v us q) {ts : List (Tok V)}
    (hts : ts.map (Tok.map f) = us) : ∃ p, Derives v ts p ∧ p.map f = q := by
  induction h generalizing ts with
  | line k _ ih =>
    obtain ⟨ts₁, ts₂, rfl, hts₁, hts₂⟩ := List.map_eq_append_iff.mp hts
    obtain ⟨p, hp, rfl⟩ := ih hts₁
    obtain rfl := map_eq_backs hts₂
    exact ⟨_, .line k hp, map_backs k⟩
  | list k _ _ ih₁ ih₂ =>
    obtain ⟨ts₁, ts₂, rfl, hts₁, hts₂⟩ := List.map_eq_append_iff.mp hts
    obtain ⟨ts₃, ts₄, rfl, hts₃, hts₄⟩ := List.map_eq_append_iff.mp hts₁
    obtain ⟨t, ts₅, rfl, hsym, hts₅⟩ := List.map_eq_cons_iff.mp hts₂
    obtain ⟨p, hp, rfl⟩ := ih₁ hts₃
    obtain ⟨p', hp', rfl⟩ := ih₂ hts₅
    obtain rfl := map_eq_backs hts₄
    obtain rfl := map_eq_sym hsym
    exact ⟨_, .list k hp hp', by rw [Cmd.map, map_backs]⟩
  | one _ ih =>
    obtain ⟨p, hp, rfl⟩ := ih hts
    exact ⟨p, .one hp, rfl⟩
  | pipe _ _ ih₁ ih₂ =>
    obtain ⟨ts₁, ts₂, rfl, hts₁, hts₂⟩ := List.map_eq_append_iff.mp hts
    obtain ⟨t, ts₃, rfl, hsym, hts₃⟩ := List.map_eq_cons_iff.mp hts₂
    obtain ⟨p, hp, rfl⟩ := ih₁ hts₁
    obtain ⟨p', hp', rfl⟩ := ih₂ hts₃
    obtain rfl := map_eq_sym hsym
    exact ⟨_, .pipe hp hp', rfl⟩
  | exec hi hmax =>
    obtain ⟨argv', rs', hi', rfl, rfl⟩ := hi.lift hts
    rw [List.length_map] at hmax
    exact ⟨_, .exec hi' hmax, map_redirs⟩
  | block _ hr ih =>
    obtain ⟨ts₁, ts₂, rfl, hts₁, hts₂⟩ := List.map_eq_append_iff.mp hts
    obtain ⟨t, ts₃, rfl, hsym, hts₃⟩ := List.map_eq_cons_iff.mp hts₁
    obtain ⟨t', ts₄, rfl, hsym', hts₄⟩ := List.map_eq_cons_iff.mp hts₂
    obtain ⟨p, hp, rfl⟩ := ih hts₃
    obtain ⟨rs', hr', rfl⟩ := hr.lift hts₄
    obtain rfl := map_eq_sym hsym
    obtain rfl := map_eq_sym hsym'
    exact ⟨_, .block hp hr', map_redirs⟩

/-! ### The strings of a command -/

variable {l buf b : List Char} {s : Nat} {ts : List (Tok Word)} {p : Cmd Word}

theorem Redirs.words {rs : List (Char × Word)} (h : Redirs ts rs) : ∀ r ∈ rs, .word r.2 ∈ ts := by
  induction h with
  | nil => exact nofun
  | cons _ _ ih =>
    refine List.forall_mem_cons.mpr ⟨by simp, fun r hr => ?_⟩
    exact List.mem_cons_of_mem _ (List.mem_cons_of_mem _ (ih r hr))

theorem Items.words {argv : List Word} {rs : List (Char × Word)} (h : Items ts argv rs) :
    (∀ w ∈ argv, .word w ∈ ts) ∧ ∀ r ∈ rs, .word r.2 ∈ ts := by
  induction h with
  | nil => exact ⟨nofun, nofun⟩
  | word _ ih =>
    exact ⟨List.forall_mem_cons.mpr ⟨List.mem_cons_self, fun w hw => List.mem_cons_of_mem _ (ih.1 w hw)⟩,
      fun r hr => List.mem_cons_of_mem _ (ih.2 r hr)⟩
  | redir _ _ ih =>
    refine ⟨fun w hw => ?_, List.forall_mem_cons.mpr ⟨by simp, fun r hr => ?_⟩⟩
    · exact List.mem_cons_of_mem _ (List.mem_cons_of_mem _ (ih.1 w hw))
    · exact List.mem_cons_of_mem _ (List.mem_cons_of_mem _ (ih.2 r hr))

theorem words_redirect {c : Char} {w u : Word} (h : u ∈ (redirect c p w).words) : u ∈ p.words ∨ u = w := by
  unfold redirect at h
  split at h
  · exact (List.mem_append.mp h).imp_right List.mem_singleton.mp
  · exact (List.mem_append.mp h).imp_right List.mem_singleton.mp
  · exact (List.mem_append.mp h).imp_right List.mem_singleton.mp
  · exact .inl h

theorem words_redirs {rs : List (Char × Word)} {u : Word} (h : u ∈ (p.redirs rs).words) :
    u ∈ p.words ∨ ∃ r ∈ rs, u = r.2 := by
  induction rs generalizing p with
  | nil => exact .inl h
  | cons r rs ih =>
    rcases ih h with h | ⟨r', hr', rfl⟩
    · exact (words_redirect h).imp_right fun heq => ⟨r, List.mem_cons_self, heq⟩
    · exact .inr ⟨r', List.mem_cons_of_mem r hr', rfl⟩

theorem words_backs (k : Nat) : (p.backs k).words = p.words := by
  induction k generalizing p with
  | zero => rfl
  | succ k ih => exact ih

/-- The words of a command are words of the line. -/
theorem Derives.words (h : Derives v ts p) : ∀ w ∈ p.words, .word w ∈ ts := by
  induction h with
  | line k _ ih =>
    rw [words_backs]
    exact fun w hw => List.mem_append_left _ (ih w hw)
  | list k _ _ ih₁ ih₂ =>
    rw [Cmd.words, words_backs, List.forall_mem_append]
    exact ⟨fun w hw => List.mem_append_left _ (List.mem_append_left _ (ih₁ w hw)),
      fun w hw => List.mem_append_right _ (List.mem_cons_of_mem _ (ih₂ w hw))⟩
  | one _ ih => exact ih
  | pipe _ _ ih₁ ih₂ =>
    rw [Cmd.words, List.forall_mem_append]
    exact ⟨fun w hw => List.mem_append_left _ (ih₁ w hw),
      fun w hw => List.mem_append_right _ (List.mem_cons_of_mem _ (ih₂ w hw))⟩
  | exec hi =>
    intro w hw
    rcases words_redirs hw with hw | ⟨r, hr, rfl⟩
    · exact hi.words.1 w hw
    · exact hi.words.2 r hr
  | block _ hr ih =>
    intro w hw
    rcases words_redirs hw with hw | ⟨r, hr', rfl⟩
    · exact List.mem_append_left _ (List.mem_cons_of_mem _ (ih w hw))
    · exact List.mem_append_right _ (List.mem_cons_of_mem _ (hr.words r hr'))

theorem nulterminate_eq : nulterminate buf p = p.words.foldl (fun b w => b.set w.2 NUL) buf := by
  induction p generalizing buf with
  | exec argv => rfl
  | redir cmd file mode fd ih => rw [nulterminate, ih, Cmd.words, List.foldl_append]; rfl
  | pipe left right ihl ihr => rw [nulterminate, ihl, ihr, Cmd.words, List.foldl_append]
  | list left right ihl ihr => rw [nulterminate, ihl, ihr, Cmd.words, List.foldl_append]
  | back cmd ih => exact ih

theorem deref_set {i j : Nat} : deref (buf.set j NUL) i = if i = j then NUL else deref buf i := by
  rw [deref, List.getD_eq_getElem?_getD, List.getElem?_set]
  by_cases heq : i = j
  · rw [if_pos heq, if_pos heq.symm]
    split <;> rfl
  · rw [if_neg heq, if_neg (Ne.symm heq), deref, List.getD_eq_getElem?_getD]

/-- After `nulterminate` there is a NUL behind every word, and nothing else has changed. -/
theorem deref_nulterminate (i : Nat) :
    deref (nulterminate buf p) i = if ∃ w ∈ p.words, i = w.2 then NUL else deref buf i := by
  rw [nulterminate_eq]
  induction p.words generalizing buf with
  | nil => rw [if_neg (by rintro ⟨w, hw, -⟩; cases hw)]; rfl
  | cons w ws ih =>
    rw [List.foldl_cons, ih, deref_set]
    by_cases hmem : ∃ w ∈ ws, i = w.2
    · obtain ⟨u, hu, heq⟩ := hmem
      rw [if_pos ⟨u, hu, heq⟩, if_pos ⟨u, List.mem_cons_of_mem w hu, heq⟩]
    · rw [if_neg hmem]
      by_cases heq : i = w.2
      · rw [if_pos heq, if_pos ⟨w, List.mem_cons_self, heq⟩]
      · rw [if_neg heq, if_neg]
        rintro ⟨u, hu, hi⟩
        rcases List.mem_cons.mp hu with rfl | hu
        · exact heq hi
        · exact hmem ⟨u, hu, hi⟩

theorem drop_deref (h : deref l s ≠ NUL) : l.drop s = deref l s :: l.drop (s + 1) := by
  rw [deref_getElem (deref_lt h)]
  exact List.drop_eq_getElem_cons (deref_lt h)

/-- A string with a NUL behind it. -/
theorem cstr_eq {q k : Nat} (hsame : ∀ i, i < k → deref b (q + i) = deref l (q + i) ∧ deref l (q + i) ≠ NUL)
    (hend : deref b (q + k) = NUL) : cstr b q = (l.drop q).take k := by
  induction k generalizing q with
  | zero =>
    rw [cstr, List.take_zero]
    rw [Nat.add_zero, deref_eq] at hend
    cases h : b.drop q with
    | nil => rfl
    | cons c d =>
      rw [h, List.headD_cons] at hend
      exact List.takeWhile_cons_of_neg (by simp [hend])
  | succ k ih =>
    obtain ⟨heq, hne⟩ := hsame 0 (Nat.succ_pos k)
    rw [Nat.add_zero] at heq hne
    have hrest := ih (q := q + 1) (fun i hi => by
      have hnext := hsame (i + 1) (Nat.succ_lt_succ hi)
      rwa [Nat.add_right_comm, Nat.add_assoc]) (by rwa [Nat.add_assoc, Nat.add_comm 1 k])
    rw [cstr, drop_deref (heq ▸ hne), List.takeWhile_cons_of_pos (by simpa [heq] using hne), drop_deref hne,
      List.take_succ_cons, heq]
    exact congrArg _ hrest

theorem nul_not_mem_text : NUL ∉ text buf := fun h => by
  have hne := List.mem_takeWhile_imp h
  simp at hne

theorem deref_text {i : Nat} (hi : i < (text buf).length) : deref (text buf) i = deref buf i := by
  have hpre := List.takeWhile_prefix (· ≠ NUL) (l := buf)
  rw [deref_getElem hi, deref_getElem (hi.trans_le hpre.length_le)]
  exact hpre.getElem hi

/-- The strings of the command are the words of the line: no NUL is written into another word. -/
theorem nulterminate_spec (hlex : Lex (text buf) s ts) (hd : Derives v ts p) :
    p.map (fun w => cstr (nulterminate buf p) w.1) = p.map (slice (text buf)) := by
  have hl : NUL ∉ text buf := nul_not_mem_text
  refine map_congr fun w hw => ?_
  obtain ⟨hlt, hin, -⟩ := hlex.word (hd.words w hw)
  refine cstr_eq (fun i hi => ?_) ?_
  · have hi' := hin (w.1 + i) (Nat.le_add_right ..) (by omega)
    -- Behind a word there is no character that could be in a word.
    have hnone : ¬ ∃ u ∈ p.words, w.1 + i = u.2 := by
      rintro ⟨u, hu, heq⟩
      exact (hlex.word (hd.words u hu)).2.2 (heq ▸ hi')
    rw [deref_nulterminate, if_neg hnone]
    refine ⟨(deref_text hi'.1).symm, fun hnul => hl ?_⟩
    rw [deref_getElem hi'.1] at hnul
    exact hnul ▸ List.getElem_mem hi'.1
  · rw [deref_nulterminate, if_pos ⟨w, hw, by omega⟩]

/-! ### The command of a line -/

theorem parsecmd_sound {buf' : List Char} (hx : parsecmd buf = .ok (p, buf')) :
    buf' = nulterminate buf p ∧ ∃ ts, Lex (text buf) 0 ts ∧ Derives .line ts p := by
  obtain ⟨ts, hlex⟩ := exists_lex (nul_not_mem_text : NUL ∉ text buf) (Nat.zero_le _)
  obtain ⟨⟨q, s⟩, hline, hx⟩ := bind_eq_ok.mp hx
  obtain ⟨us, rest, rfl, hd, hrest⟩ := (parse_sound (text buf) _).1 _ _ _ _ hlex hline
  change (if skip isSpace (text buf) s ≠ (text buf).length then _ else _) = _ at hx
  split at hx
  · cases hx
  · rename_i hend
    cases hx
    have hnul : (gettoken (text buf) s).ret = NUL := by
      refine gettoken_end fun c hc => ?_
      have hdrop : (List.drop s (text buf)).dropWhile isSpace = [] := by
        rw [← drop_skip, not_not.mp hend, List.drop_length]
      exact List.dropWhile_eq_nil_iff.mp hdrop c hc
    obtain rfl := hrest.of_end hnul
    rw [List.append_nil] at hlex
    exact ⟨rfl, us, hlex, hd⟩

theorem parsecmd_complete (hlex : Lex (text buf) 0 ts) (hd : Derives .line ts p) :
    parsecmd buf = .ok (p, nulterminate buf p) := by
  have hfuel : fuel .line ts.length ≤ 4 * (text buf).length + 4 := by
    have hlen := hlex.length_le nul_not_mem_text
    simp only [fuel]
    omega
  obtain ⟨s, hx, hrest⟩ := parse_complete hd hfuel 0 [] (by rwa [List.append_nil]) (.inl rfl)
  change parseline _ _ _ = _ at hx
  rw [parsecmd]
  dsimp only
  rw [hx, ok_bind]
  exact if_neg (not_not.mpr (hrest.end_eq nul_not_mem_text))

/-- `parsecmd` returns the command of the line, with its strings. -/
theorem parsecmd_iff {C : Cmd (List Char)} : (∃ vs, Tokens (text buf) vs ∧ Derives .line vs C) ↔
    ∃ p buf', parsecmd buf = .ok (p, buf') ∧ p.map (fun w => cstr buf' w.1) = C := by
  have hl : NUL ∉ text buf := nul_not_mem_text
  constructor
  · rintro ⟨vs, hvs, hd⟩
    obtain ⟨us, hus, rfl⟩ := lex_of_tokens hl hvs (Nat.zero_le _) rfl
    obtain ⟨q, hq, rfl⟩ := hd.lift rfl
    exact ⟨q, _, parsecmd_complete hus hq, nulterminate_spec hus hq⟩
  · rintro ⟨q, buf', hx, rfl⟩
    obtain ⟨rfl, us, hus, hd⟩ := parsecmd_sound hx
    refine ⟨_, hus.tokens hl, ?_⟩
    rw [nulterminate_spec hus hd]
    exact hd.map _

/-- A line has at most one command. -/
theorem command_unique {C C' : Cmd (List Char)} (h : ∃ vs, Tokens (text buf) vs ∧ Derives .line vs C)
    (h' : ∃ vs, Tokens (text buf) vs ∧ Derives .line vs C') : C = C' := by
  obtain ⟨p, b, hx, rfl⟩ := parsecmd_iff.mp h
  obtain ⟨p', b', hx', rfl⟩ := parsecmd_iff.mp h'
  rw [hx] at hx'
  cases hx'
  rfl

/-- `parsecmd` returns or panics, and if the tokens of the line are in the grammar, it returns their
    command, with the strings in the line. -/
theorem shell_reads_commands (buf : List Char) : Ends (parsecmd buf) ∧ ∀ C : Cmd (List Char),
    (∃ vs, Tokens (text buf) vs ∧ Derives .line vs C) ↔
      ∃ p buf', parsecmd buf = .ok (p, buf') ∧ p.map (fun w => cstr buf' w.1) = C := by
  have hl : NUL ∉ text buf := nul_not_mem_text
  refine ⟨?_, fun C => parsecmd_iff⟩
  obtain ⟨ts, hlex⟩ := exists_lex hl (Nat.zero_le _)
  have hlen := hlex.length_le hl
  refine ((parse_ends (text buf) _ 0 ts hlex).1 (by omega)).bind fun ⟨q, s⟩ _ => ?_
  show Ends (if skip isSpace (text buf) s ≠ (text buf).length then _ else _)
  split
  · exact ends_panic
  · exact ends_ok

/-! ### Commands are written and read -/

def parens (ts : List (Tok W)) : List (Tok W) := .sym '(' :: ts ++ [.sym ')']

/-- The tokens of a command; commands inside it are in parentheses. -/
def Cmd.print : Cmd W → List (Tok W)
  | .exec argv => argv.map .word
  | .redir cmd file mode _ => parens cmd.print ++ [.sym (if mode = O_RDONLY then '<' else '>'), .word file]
  | .pipe left right => parens left.print ++ .sym '|' :: parens right.print
  | .list left right => parens left.print ++ .sym ';' :: parens right.print
  | .back cmd => parens cmd.print ++ [.sym '&']

/-- The text of a token. -/
def Tok.render : Tok (List Char) → List Char
  | .word w => w
  | .sym c => if c = '+' then ['>', '>'] else [c]

/-- The tokens with a blank behind each. -/
def render (ts : List (Tok (List Char))) : List Char := ts.flatMap fun t => t.render ++ [' ']

/-- A string that can be a word. -/
def Plain (w : List Char) : Prop := w ≠ [] ∧ ∀ c ∈ w, isPlain c = true ∧ c ≠ NUL

/-- A command with words that can be written, not too many arguments, and the modes that `parseredirs`
    knows. -/
def Cmd.Proper : Cmd (List Char) → Prop
  | .exec argv => argv.length < MAXARGS ∧ ∀ w ∈ argv, Plain w
  | .redir cmd file mode fd => cmd.Proper ∧ Plain file ∧
      (mode = O_RDONLY ∧ fd = 0 ∨ mode = O_WRONLY ||| O_CREATE ∧ fd = 1)
  | .pipe left right => left.Proper ∧ right.Proper
  | .list left right => left.Proper ∧ right.Proper
  | .back cmd => cmd.Proper

theorem items_words (argv : List W) : Items (argv.map .word) argv [] := by
  induction argv with
  | nil => exact .nil
  | cons w argv ih => exact .word ih

theorem derives_parens {us ts : List (Tok W)} {q : Cmd W} {rs : List (Char × W)} (h : Derives .line us q)
    (hr : Redirs ts rs) : Derives .exec (parens us ++ ts) (q.redirs rs) := by
  have hblock := Derives.block h hr
  rwa [List.append_cons] at hblock

theorem derives_block {us : List (Tok W)} {q : Cmd W} (h : Derives .line us q) : Derives .exec (parens us) q :=
  .block h .nil

theorem derives_line {us : List (Tok W)} {q : Cmd W} (h : Derives .pipe us q) : Derives .line us q := by
  have hline := h.line 0
  rwa [List.replicate_zero, List.append_nil] at hline

theorem print_derives {C : Cmd (List Char)} (hC : C.Proper) : Derives .line C.print C := by
  induction C with
  | exec argv => exact derives_line (.one (.exec (items_words argv) hC.1))
  | redir cmd file mode fd ih =>
    obtain ⟨hcmd, -, ⟨rfl, rfl⟩ | ⟨rfl, rfl⟩⟩ := hC
    · have hr : Redirs [.sym '<', .word file] [('<', file)] := .cons (by decide) .nil
      exact derives_line (.one (derives_parens (ih hcmd) hr))
    · have hr : Redirs [.sym '>', .word file] [('>', file)] := .cons (by decide) .nil
      exact derives_line (.one (derives_parens (ih hcmd) hr))
  | pipe left right ihl ihr =>
    exact derives_line (.pipe (derives_block (ihl hC.1)) (.one (derives_block (ihr hC.2))))
  | list left right ihl ihr =>
    have hlist := Derives.list 0 (.one (derives_block (ihl hC.1))) (derives_line (.one (derives_block (ihr hC.2))))
    rwa [List.replicate_zero, List.append_nil] at hlist
  | back cmd ih => exact .line 1 (.one (derives_block (ih hC)))

/-- A token that can be written. -/
def Tok.Good : Tok (List Char) → Prop
  | .word w => Plain w
  | .sym c => c ∈ symbols ∨ c = '+'

theorem good_sym {c : Char} (hc : c ∈ symbols) : (Tok.sym c).Good := .inl hc

theorem good_parens {ts : List (Tok (List Char))} (h : ∀ t ∈ ts, t.Good) : ∀ t ∈ parens ts, t.Good := by
  refine List.forall_mem_append.mpr ⟨List.forall_mem_cons.mpr ⟨good_sym (by decide), h⟩, ?_⟩
  exact List.forall_mem_singleton.mpr (good_sym (by decide))

theorem print_good {C : Cmd (List Char)} (hC : C.Proper) : ∀ t ∈ C.print, t.Good := by
  induction C with
  | exec argv => exact List.forall_mem_map.mpr hC.2
  | redir cmd file mode fd ih =>
    refine List.forall_mem_append.mpr ⟨good_parens (ih hC.1), List.forall_mem_cons.mpr ⟨good_sym ?_, ?_⟩⟩
    · split <;> decide
    · exact List.forall_mem_singleton.mpr hC.2.1
  | pipe left right ihl ihr =>
    refine List.forall_mem_append.mpr ⟨good_parens (ihl hC.1), ?_⟩
    exact List.forall_mem_cons.mpr ⟨good_sym (by decide), good_parens (ihr hC.2)⟩
  | list left right ihl ihr =>
    refine List.forall_mem_append.mpr ⟨good_parens (ihl hC.1), ?_⟩
    exact List.forall_mem_cons.mpr ⟨good_sym (by decide), good_parens (ihr hC.2)⟩
  | back cmd ih =>
    exact List.forall_mem_append.mpr ⟨good_parens (ih hC), List.forall_mem_singleton.mpr (good_sym (by decide))⟩

theorem Tok.Good.reads {t : Tok (List Char)} (h : t.Good) (d : List Char) :
    Reads (t.render ++ ' ' :: d) t (' ' :: d) := by
  cases t with
  | word w =>
    refine .word h.1 (fun c hc => (h.2 c hc).1) fun c hc => ?_
    obtain rfl := Option.some.inj hc
    decide
  | sym c =>
    by_cases hplus : c = '+'
    · subst hplus
      exact .append _
    · have hc : c ∈ symbols := h.resolve_right hplus
      rw [Tok.render, if_neg hplus]
      by_cases hgt : c = '>'
      · subst hgt
        exact .greater _ (by simp)
      · exact .sym _ hc hgt

theorem Tok.Good.not_nul {t : Tok (List Char)} (h : t.Good) : NUL ∉ t.render := by
  cases t with
  | word w => exact fun hm => (h.2 _ hm).2 rfl
  | sym c =>
    rw [Tok.render]
    split
    · decide
    · rename_i hplus
      have hall : ∀ c ∈ symbols, NUL ∉ [c] := forall_mem (by decide)
      exact hall c (h.resolve_right hplus)

theorem Tokens.cons_space {d : List Char} {c : Char} {vs : List (Tok (List Char))} (hc : isSpace c = true)
    (h : Tokens d vs) : Tokens (c :: d) vs := by
  cases h with
  | nil hu => exact .nil (List.forall_mem_cons.mpr ⟨hc, hu⟩)
  | cons hu hr ht => exact .cons (List.forall_mem_cons.mpr ⟨hc, hu⟩) hr ht

theorem render_tokens {vs : List (Tok (List Char))} (h : ∀ t ∈ vs, t.Good) :
    Tokens (render vs) vs ∧ NUL ∉ render vs := by
  induction vs with
  | nil => exact ⟨.nil nofun, nofun⟩
  | cons t vs ih =>
    obtain ⟨ht, hvs⟩ := List.forall_mem_cons.mp h
    obtain ⟨htokens, hnul⟩ := ih hvs
    have hrest : Tokens (' ' :: render vs) vs := htokens.cons_space (by decide)
    have heq : render (t :: vs) = t.render ++ ' ' :: render vs := by
      rw [render, List.flatMap_cons, List.append_assoc]
      rfl
    rw [heq]
    refine ⟨.cons (u := []) nofun (ht.reads _) hrest, ?_⟩
    rw [List.mem_append, List.mem_cons]
    rintro (hm | hm | hm)
    · exact ht.not_nul hm
    · exact absurd hm (by decide)
    · exact hnul hm

/-- Every command can be written in a line, whatever is behind it in memory, and the shell reads it. -/
theorem commands_are_read_back {C : Cmd (List Char)} (hC : C.Proper) (junk : List Char) :
    ∃ p buf', parsecmd (render C.print ++ NUL :: junk) = .ok (p, buf') ∧
      p.map (fun w => cstr buf' w.1) = C := by
  obtain ⟨htokens, hnul⟩ := render_tokens (print_good hC)
  have htext : text (render C.print ++ NUL :: junk) = render C.print := by
    rw [text, List.takeWhile_append_of_pos, List.takeWhile_cons_of_neg (by simp), List.append_nil]
    intro c hc
    exact decide_eq_true fun heq => hnul (heq ▸ hc)
  exact parsecmd_iff.mp ⟨C.print, htext.symm ▸ htokens, print_derives hC⟩

/-- `cat README | wc > out; ls &`. -/
def countWords : Cmd (List Char) :=
  .list (.pipe (.exec [['c', 'a', 't'], ['R', 'E', 'A', 'D', 'M', 'E']])
    (.redir (.exec [['w', 'c']]) ['o', 'u', 't'] (O_WRONLY ||| O_CREATE) 1)) (.back (.exec [['l', 's']]))

theorem countWords_proper : countWords.Proper := by
  have hcat : ∀ w ∈ [['c', 'a', 't'], ['R', 'E', 'A', 'D', 'M', 'E']], Plain w :=
    List.forall_mem_cons.mpr ⟨⟨by decide, forall_mem (by decide)⟩,
      List.forall_mem_singleton.mpr ⟨by decide, forall_mem (by decide)⟩⟩
  have hwc : ∀ w ∈ [['w', 'c']], Plain w :=
    List.forall_mem_singleton.mpr ⟨by decide, forall_mem (by decide)⟩
  have hls : ∀ w ∈ [['l', 's']], Plain w :=
    List.forall_mem_singleton.mpr ⟨by decide, forall_mem (by decide)⟩
  exact ⟨⟨⟨by decide, hcat⟩, ⟨by decide, hwc⟩, ⟨by decide, forall_mem (by decide)⟩, .inr ⟨rfl, rfl⟩⟩, by decide, hls⟩

theorem commands_are_read_back_countWords : ∃ p buf',
    parsecmd (render countWords.print ++ NUL :: ['x']) = .ok (p, buf') ∧
      p.map (fun w => cstr buf' w.1) = countWords :=
  commands_are_read_back countWords_proper ['x']

end Xv6.Shell
