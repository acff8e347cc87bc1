import Xv6.Lib.Transition
import Xv6.Shell.Token

namespace Xv6.Shell

open Xv6.Lib

/-!
# Shell — commands (`sh.c`)

* `parseline`, `parsepipe`, `parseexec`, `parseblock` — the parser of the shell, a function for each level;
* `Derives` — the grammar of command lines, for words of any type;
* `parse_complete`, `parse_sound`, `parse_ends` — the parser finds exactly what the grammar allows.
-/

/-- `panic(msg)`, or a loop that does not end. -/
inductive Stop
  | panic (msg : String)
  | diverges

def MAXARGS : Nat := 10

def O_RDONLY : Nat := 0x000

def O_WRONLY : Nat := 0x001

def O_CREATE : Nat := 0x200

/-- A command; `W` is what stands for a string. -/
inductive Cmd (W : Type)
  | exec (argv : List W)
  | redir (cmd : Cmd W) (file : W) (mode fd : Nat)
  | pipe (left right : Cmd W)
  | list (left right : Cmd W)
  | back (cmd : Cmd W)
  deriving DecidableEq

/-- A word from `q` to `eq`. -/
abbrev Word := Nat × Nat

variable {W V : Type}

/-- The `execcmd` at the bottom gets one more argument. -/
def Cmd.addArg (w : W) : Cmd W → Cmd W
  | .exec argv => .exec (argv ++ [w])
  | .redir cmd file mode fd => .redir (cmd.addArg w) file mode fd
  | c => c

/-- The `switch` of `parseredirs`. -/
def redirect (tok : Char) (cmd : Cmd W) (file : W) : Cmd W :=
  match tok with
  | '<' => .redir cmd file O_RDONLY 0
  | '>' => .redir cmd file (O_WRONLY ||| O_CREATE) 1
  | '+' => .redir cmd file (O_WRONLY ||| O_CREATE) 1
  | _ => cmd

/-! ### The parser -/

/-- The loop of `parseredirs`. -/
def parseredirs (l : List Char) : Nat → Cmd Word → Nat → Except Stop (Cmd Word × Nat)
  | 0, _, _ => .error .diverges
  | n + 1, cmd, s =>
    let (b, s) := peek l s ['<', '>']
    if b then
      let tok := gettoken l s
      let file := gettoken l tok.ps
      if file.ret ≠ 'a' then .error (.panic "missing file for redirection")
      else parseredirs l n (redirect tok.ret cmd (file.q, file.eq)) file.ps
    else .ok (cmd, s)

/-- The loop of `parseexec`. -/
def parseargs (l : List Char) : Nat → Nat → Cmd Word → Nat → Except Stop (Cmd Word × Nat)
  | 0, _, _, _ => .error .diverges
  | n + 1, argc, cmd, s =>
    let (b, s) := peek l s ['|', ')', '&', ';']
    if b then .ok (cmd, s)
    else
      let tok := gettoken l s
      if tok.ret = NUL then .ok (cmd, tok.ps)
      else if tok.ret ≠ 'a' then .error (.panic "syntax")
      else if MAXARGS ≤ argc + 1 then .error (.panic "too many args")
      else do
        let (cmd, s) ← parseredirs l n (cmd.addArg (tok.q, tok.eq)) tok.ps
        parseargs l n (argc + 1) cmd s

/-- The loop of `parseline`. -/
def parsebacks (l : List Char) : Nat → Cmd Word → Nat → Except Stop (Cmd Word × Nat)
  | 0, _, _ => .error .diverges
  | n + 1, cmd, s =>
    let (b, s) := peek l s ['&']
    if b then parsebacks l n (.back cmd) (gettoken l s).ps
    else .ok (cmd, s)

mutual

def parseline (l : List Char) : Nat → Nat → Except Stop (Cmd Word × Nat)
  | 0, _ => .error .diverges
  | n + 1, s => do
    let (cmd, s) ← parsepipe l n s
    let (cmd, s) ← parsebacks l n cmd s
    let (b, s) := peek l s [';']
    if b then
      let (right, s) ← parseline l n (gettoken l s).ps
      .ok (.list cmd right, s)
    else .ok (cmd, s)

def parsepipe (l : List Char) : Nat → Nat → Except Stop (Cmd Word × Nat)
  | 0, _ => .error .diverges
  | n + 1, s => do
    let (cmd, s) ← parseexec l n s
    let (b, s) := peek l s ['|']
    if b then
      let (right, s) ← parsepipe l n (gettoken l s).ps
      .ok (.pipe cmd right, s)
    else .ok (cmd, s)

def parseexec (l : List Char) : Nat → Nat → Except Stop (Cmd Word × Nat)
  | 0, _ => .error .diverges
  | n + 1, s =>
    let (b, s) := peek l s ['(']
    if b then parseblock l n s
    else do
      let (cmd, s) ← parseredirs l n (.exec []) s
      parseargs l n 0 cmd s

def parseblock (l : List Char) : Nat → Nat → Except Stop (Cmd Word × Nat)
  | 0, _ => .error .diverges
  | n + 1, s =>
    let (b, s) := peek l s ['(']
    if !b then .error (.panic "parseblock")
    else do
      let (cmd, s) ← parseline l n (gettoken l s).ps
      let (b, s) := peek l s [')']
      if !b then .error (.panic "syntax - missing )")
      else parseredirs l n cmd (gettoken l s).ps

end

/-- `nulterminate`: the character behind every string becomes NUL. -/
def nulterminate (buf : List Char) : Cmd Word → List Char
  | .exec argv => argv.foldl (fun b w => b.set w.2 NUL) buf
  | .redir cmd file _ _ => (nulterminate buf cmd).set file.2 NUL
  | .pipe left right => nulterminate (nulterminate buf left) right
  | .list left right => nulterminate (nulterminate buf left) right
  | .back cmd => nulterminate buf cmd

/-- The characters up to `es`. -/
def text (buf : List Char) : List Char := buf.takeWhile (· ≠ NUL)

/-- `parsecmd`: the command, and the line with its strings. -/
def parsecmd (buf : List Char) : Except Stop (Cmd Word × List Char) := do
  let l := text buf
  let (cmd, s) ← parseline l (4 * l.length + 4) 0
  let (_, s) := peek l s []
  -- `leftovers` is printed before the panic.
  if s ≠ l.length then .error (.panic "syntax")
  else .ok (cmd, nulterminate buf cmd)

/-! ### The grammar -/

/-- The command with redirections. -/
def Cmd.redirs (cmd : Cmd W) (rs : List (Char × W)) : Cmd W :=
  rs.foldl (fun cmd r => redirect r.1 cmd r.2) cmd

/-- The command with so many `&` behind it. -/
def Cmd.backs : Nat → Cmd W → Cmd W
  | 0, cmd => cmd
  | k + 1, cmd => backs k (.back cmd)

inductive Redirs : List (Tok W) → List (Char × W) → Prop
  | nil : Redirs [] []
  | cons {c : Char} {w : W} {ts : List (Tok W)} {rs : List (Char × W)} : c ∈ ['<', '>', '+'] → Redirs ts rs →
      Redirs (.sym c :: .word w :: ts) ((c, w) :: rs)

/-- Arguments and redirections in any order. -/
inductive Items : List (Tok W) → List W → List (Char × W) → Prop
  | nil : Items [] [] []
  | word {w : W} {ts : List (Tok W)} {argv : List W} {rs : List (Char × W)} : Items ts argv rs →
      Items (.word w :: ts) (w :: argv) rs
  | redir {c : Char} {w : W} {ts : List (Tok W)} {argv : List W} {rs : List (Char × W)} :
      c ∈ ['<', '>', '+'] → Items ts argv rs → Items (.sym c :: .word w :: ts) argv ((c, w) :: rs)

inductive Level
  | line
  | pipe
  | exec

inductive Derives : Level → List (Tok W) → Cmd W → Prop
  | line {ts : List (Tok W)} {cmd : Cmd W} (k : Nat) : Derives .pipe ts cmd →
      Derives .line (ts ++ List.replicate k (.sym '&')) (Cmd.backs k cmd)
  | list {ts us : List (Tok W)} {cmd right : Cmd W} (k : Nat) : Derives .pipe ts cmd → Derives .line us right →
      Derives .line (ts ++ List.replicate k (.sym '&') ++ .sym ';' :: us) (.list (Cmd.backs k cmd) right)
  | one {ts : List (Tok W)} {cmd : Cmd W} : Derives .exec ts cmd → Derives .pipe ts cmd
  | pipe {ts us : List (Tok W)} {cmd right : Cmd W} : Derives .exec ts cmd → Derives .pipe us right →
      Derives .pipe (ts ++ .sym '|' :: us) (.pipe cmd right)
  | exec {ts : List (Tok W)} {argv : List W} {rs : List (Char × W)} : Items ts argv rs → argv.length < MAXARGS →
      Derives .exec ts ((Cmd.exec argv).redirs rs)
  | block {ts us : List (Tok W)} {cmd : Cmd W} {rs : List (Char × W)} : Derives .line ts cmd → Redirs us rs →
      Derives .exec (.sym '(' :: ts ++ .sym ')' :: us) (cmd.redirs rs)

/-! ### Commands -/

variable {cmd cmd' : Cmd W} {rs rs' : List (Char × W)} {argv : List W} {c : Char}

theorem addArg_redirect (w v : W) : (redirect c cmd v).addArg w = redirect c (cmd.addArg w) v := by
  unfold redirect
  split <;> rfl

theorem addArg_redirs (w : W) : (cmd.redirs rs).addArg w = (cmd.addArg w).redirs rs := by
  induction rs generalizing cmd with
  | nil => rfl
  | cons r rs ih =>
    show ((redirect r.1 cmd r.2).redirs rs).addArg w = (redirect r.1 (cmd.addArg w) r.2).redirs rs
    rw [ih, addArg_redirect]

theorem redirs_append : cmd.redirs (rs ++ rs') = (cmd.redirs rs).redirs rs' := List.foldl_append

/-- The command with so many arguments more. -/
def Cmd.addArgs (cmd : Cmd W) (argv : List W) : Cmd W := argv.foldl (fun cmd w => cmd.addArg w) cmd

theorem addArgs_exec (argv₀ argv : List W) : (Cmd.exec argv₀).addArgs argv = .exec (argv₀ ++ argv) := by
  induction argv generalizing argv₀ with
  | nil => rw [List.append_nil]; rfl
  | cons w argv ih =>
    show (Cmd.exec (argv₀ ++ [w])).addArgs argv = _
    rw [ih, List.append_assoc]
    rfl

theorem addArgs_redirs : (cmd.redirs rs).addArgs argv = (cmd.addArgs argv).redirs rs := by
  induction argv generalizing cmd with
  | nil => rfl
  | cons w argv ih =>
    show ((cmd.redirs rs).addArg w).addArgs argv = ((cmd.addArg w).addArgs argv).redirs rs
    rw [addArg_redirs, ih]

theorem addArgs_redirect (v : W) : (redirect c cmd v).addArgs argv = redirect c (cmd.addArgs argv) v := by
  induction argv generalizing cmd with
  | nil => rfl
  | cons w argv ih =>
    show ((redirect c cmd v).addArg w).addArgs argv = redirect c ((cmd.addArg w).addArgs argv) v
    rw [addArg_redirect, ih]

/-- Redirections before arguments. -/
theorem Redirs.items {ts us : List (Tok W)} (h : Redirs ts rs) (hi : Items us argv rs') :
    Items (ts ++ us) argv (rs ++ rs') := by
  induction h with
  | nil => exact hi
  | cons hc _ ih => exact .redir hc ih

/-! ### What the parser finds -/

variable {l : List Char} {s s' n argc : Nat} {ts us : List (Tok Word)} {q : Cmd Word} {p : Cmd Word}

/-- The parser has read the first tokens, and `P` holds of them. -/
def Reading (l : List Char) (ts : List (Tok Word)) (s' : Nat) (P : List (Tok Word) → Prop) : Prop :=
  ∃ us rest, ts = us ++ rest ∧ P us ∧ Lex l s' rest

/-- There is no choice but for `>`. -/
theorem starts_one (hgt : c ≠ '>') (h : Starts [c] ts) : ∃ us, ts = .sym c :: us := by
  obtain ⟨c', us, rfl, hc | ⟨-, hc⟩⟩ := h
  · exact ⟨us, by rw [List.mem_singleton.mp hc]⟩
  · exact absurd (List.mem_singleton.mp hc).symm hgt

theorem parseredirs_sound (h : Lex l s ts) (hx : parseredirs l n p s = .ok (q, s')) :
    Reading l ts s' fun us => ∃ rs, Redirs us rs ∧ q = p.redirs rs := by
  induction n generalizing p s ts with
  | zero => cases hx
  | succ n ih =>
    obtain ⟨b, s₁, hpeek, hlex, hb⟩ := h.peek ['<', '>'] (forall_mem (by decide))
    rw [parseredirs, hpeek] at hx
    cases b with
    | false =>
      cases hx
      exact ⟨[], ts, rfl, ⟨[], .nil, rfl⟩, hlex⟩
    | true =>
      obtain ⟨c, us, rfl, hc⟩ := hb.mp rfl
      obtain ⟨hret, -, -, hlex₁⟩ := hlex.sym_ret
      change (if (gettoken l (gettoken l s₁).ps).ret ≠ 'a' then _ else parseredirs l n _ _) = _ at hx
      split at hx
      · cases hx
      · rename_i hfile
        obtain ⟨vs, rfl, hlex₂⟩ := hlex₁.of_word (not_not.mp hfile)
        obtain ⟨us, rest, rfl, ⟨rs, hrs, rfl⟩, hlex₃⟩ := ih hlex₂ hx
        refine ⟨_ :: _ :: us, rest, rfl, ⟨_ :: rs, .cons ?_ hrs, by rw [← hret]; rfl⟩, hlex₃⟩
        rcases hc with hc | ⟨rfl, -⟩
        · exact List.mem_append_left ['+'] hc
        · decide

theorem parseargs_sound (h : Lex l s ts) (hargc : argc < MAXARGS) (hx : parseargs l n argc p s = .ok (q, s')) :
    Reading l ts s' fun us => ∃ argv rs, Items us argv rs ∧ argc + argv.length < MAXARGS ∧
      q = (p.addArgs argv).redirs rs := by
  induction n generalizing argc p s ts with
  | zero => cases hx
  | succ n ih =>
    obtain ⟨b, s₁, hpeek, hlex, hb⟩ := h.peek ['|', ')', '&', ';'] (forall_mem (by decide))
    rw [parseargs, hpeek] at hx
    cases b with
    | true =>
      cases hx
      exact ⟨[], ts, rfl, ⟨[], [], .nil, hargc, rfl⟩, hlex⟩
    | false =>
      change (if (gettoken l s₁).ret = NUL then _ else if (gettoken l s₁).ret ≠ 'a' then _
        else if MAXARGS ≤ argc + 1 then _ else _) = _ at hx
      split at hx
      · rename_i hret
        cases hx
        obtain rfl := hlex.of_end hret
        exact ⟨[], [], rfl, ⟨[], [], .nil, hargc, rfl⟩, hlex.end_ps⟩
      · split at hx
        · cases hx
        · rename_i hret
          split at hx
          · cases hx
          · rename_i hmax
            obtain ⟨us, rfl, hlex₁⟩ := hlex.of_word (not_not.mp hret)
            obtain ⟨⟨p₁, s₂⟩, hx₁, hx₂⟩ := bind_eq_ok.mp hx
            obtain ⟨us₁, rest, rfl, ⟨rs₁, hrs, rfl⟩, hlex₂⟩ := parseredirs_sound hlex₁ hx₁
            obtain ⟨us₂, rest, rfl, ⟨argv, rs₂, hitems, hlen, rfl⟩, hlex₃⟩ := ih hlex₂ (not_le.mp hmax) hx₂
            refine ⟨_ :: (us₁ ++ us₂), rest, by rw [List.cons_append, List.append_assoc],
              ⟨_ :: argv, rs₁ ++ rs₂, .word (hrs.items hitems), ?_, ?_⟩, hlex₃⟩
            · rw [List.length_cons]
              omega
            · rw [addArgs_redirs, redirs_append]
              rfl

theorem parsebacks_sound (h : Lex l s ts) (hx : parsebacks l n p s = .ok (q, s')) :
    Reading l ts s' fun us => ∃ k, us = List.replicate k (.sym '&') ∧ q = p.backs k := by
  induction n generalizing p s ts with
  | zero => cases hx
  | succ n ih =>
    obtain ⟨b, s₁, hpeek, hlex, hb⟩ := h.peek ['&'] (forall_mem (by decide))
    rw [parsebacks, hpeek] at hx
    cases b with
    | false =>
      cases hx
      exact ⟨[], ts, rfl, ⟨0, rfl, rfl⟩, hlex⟩
    | true =>
      obtain ⟨us, rfl⟩ := starts_one (by decide) (hb.mp rfl)
      obtain ⟨-, -, -, hlex₁⟩ := hlex.sym_ret
      obtain ⟨us, rest, rfl, ⟨k, rfl, rfl⟩, hlex₂⟩ := ih hlex₁ hx
      exact ⟨_, rest, rfl, ⟨k + 1, rfl, rfl⟩, hlex₂⟩

/-- What the function finds is in the grammar. -/
def Sound (l : List Char) (v : Level) (f : Nat → Except Stop (Cmd Word × Nat)) : Prop :=
  ∀ s s' ts q, Lex l s ts → f s = .ok (q, s') → Reading l ts s' fun us => Derives v us q

theorem parseline_sound (ihpipe : Sound l .pipe (parsepipe l n)) (ihline : Sound l .line (parseline l n)) :
    Sound l .line (parseline l (n + 1)) := by
  intro s s' ts q h hx
  rw [parseline] at hx
  obtain ⟨⟨p₁, s₁⟩, hx₁, hx⟩ := bind_eq_ok.mp hx
  obtain ⟨⟨p₂, s₂⟩, hx₂, hx⟩ := bind_eq_ok.mp hx
  obtain ⟨us₁, rest, rfl, hd₁, hlex₁⟩ := ihpipe _ _ _ _ h hx₁
  obtain ⟨us₂, rest, rfl, ⟨k, rfl, rfl⟩, hlex₂⟩ := parsebacks_sound hlex₁ hx₂
  obtain ⟨b, s₃, hpeek, hlex₃, hb⟩ := hlex₂.peek [';'] (forall_mem (by decide))
  dsimp only at hx
  rw [hpeek] at hx
  cases b with
  | false =>
    cases hx
    exact ⟨_, rest, (List.append_assoc ..).symm, .line k hd₁, hlex₃⟩
  | true =>
    obtain ⟨vs, rfl⟩ := starts_one (by decide) (hb.mp rfl)
    obtain ⟨-, -, -, hlex₄⟩ := hlex₃.sym_ret
    obtain ⟨⟨q', s₅⟩, hx₅, hx⟩ := bind_eq_ok.mp hx
    cases hx
    obtain ⟨us₃, rest, rfl, hd₂, hlex₅⟩ := ihline _ _ _ _ hlex₄ hx₅
    exact ⟨_, rest, by simp only [List.append_assoc, List.cons_append], .list k hd₁ hd₂, hlex₅⟩

theorem parsepipe_sound (ihexec : Sound l .exec (parseexec l n)) (ihpipe : Sound l .pipe (parsepipe l n)) :
    Sound l .pipe (parsepipe l (n + 1)) := by
  intro s s' ts q h hx
  rw [parsepipe] at hx
  obtain ⟨⟨p₁, s₁⟩, hx₁, hx⟩ := bind_eq_ok.mp hx
  obtain ⟨us₁, rest, rfl, hd₁, hlex₁⟩ := ihexec _ _ _ _ h hx₁
  obtain ⟨b, s₂, hpeek, hlex₂, hb⟩ := hlex₁.peek ['|'] (forall_mem (by decide))
  dsimp only at hx
  rw [hpeek] at hx
  cases b with
  | false =>
    cases hx
    exact ⟨us₁, rest, rfl, .one hd₁, hlex₂⟩
  | true =>
    obtain ⟨vs, rfl⟩ := starts_one (by decide) (hb.mp rfl)
    obtain ⟨-, -, -, hlex₃⟩ := hlex₂.sym_ret
    obtain ⟨⟨q', s₄⟩, hx₄, hx⟩ := bind_eq_ok.mp hx
    cases hx
    obtain ⟨us₂, rest, rfl, hd₂, hlex₄⟩ := ihpipe _ _ _ _ hlex₃ hx₄
    exact ⟨_, rest, by simp only [List.append_assoc, List.cons_append], .pipe hd₁ hd₂, hlex₄⟩

theorem parseexec_sound (ihblock : Sound l .exec (parseblock l n)) : Sound l .exec (parseexec l (n + 1)) := by
  intro s s' ts q h hx
  obtain ⟨b, s₁, hpeek, hlex, hb⟩ := h.peek ['('] (forall_mem (by decide))
  rw [parseexec, hpeek] at hx
  cases b with
  | true => exact ihblock _ _ _ _ hlex hx
  | false =>
    obtain ⟨⟨p₁, s₂⟩, hx₁, hx⟩ := bind_eq_ok.mp hx
    obtain ⟨us₁, rest, rfl, ⟨rs₁, hrs, rfl⟩, hlex₁⟩ := parseredirs_sound hlex hx₁
    obtain ⟨us₂, rest, rfl, ⟨argv, rs₂, hitems, hlen, rfl⟩, hlex₂⟩ := parseargs_sound hlex₁ (by decide) hx
    rw [addArgs_redirs, addArgs_exec, ← redirs_append, List.nil_append]
    exact ⟨_, rest, (List.append_assoc ..).symm, .exec (hrs.items hitems) (by omega), hlex₂⟩

theorem parseblock_sound (ihline : Sound l .line (parseline l n)) : Sound l .exec (parseblock l (n + 1)) := by
  intro s s' ts q h hx
  obtain ⟨b, s₁, hpeek, hlex, hb⟩ := h.peek ['('] (forall_mem (by decide))
  rw [parseblock, hpeek] at hx
  cases b with
  | false => cases hx
  | true =>
    obtain ⟨us, rfl⟩ := starts_one (by decide) (hb.mp rfl)
    obtain ⟨-, -, -, hlex₁⟩ := hlex.sym_ret
    obtain ⟨⟨p₁, s₂⟩, hx₁, hx⟩ := bind_eq_ok.mp hx
    obtain ⟨us₁, rest, rfl, hd, hlex₂⟩ := ihline _ _ _ _ hlex₁ hx₁
    obtain ⟨b', s₃, hpeek', hlex₃, hb'⟩ := hlex₂.peek [')'] (forall_mem (by decide))
    dsimp only at hx
    rw [hpeek'] at hx
    cases b' with
    | false => cases hx
    | true =>
      obtain ⟨vs, rfl⟩ := starts_one (by decide) (hb'.mp rfl)
      obtain ⟨-, -, -, hlex₄⟩ := hlex₃.sym_ret
      obtain ⟨us₂, rest, rfl, ⟨rs, hrs, rfl⟩, hlex₅⟩ := parseredirs_sound hlex₄ hx
      exact ⟨_, rest, by simp only [List.append_assoc, List.cons_append], .block hd hrs, hlex₅⟩

theorem parse_sound (l : List Char) (n : Nat) : Sound l .line (parseline l n) ∧
    Sound l .pipe (parsepipe l n) ∧ Sound l .exec (parseexec l n) ∧ Sound l .exec (parseblock l n) := by
  induction n with
  | zero =>
    refine ⟨fun _ _ _ _ _ hx => ?_, fun _ _ _ _ _ hx => ?_, fun _ _ _ _ _ hx => ?_, fun _ _ _ _ _ hx => ?_⟩
    · rw [parseline] at hx
      cases hx
    · rw [parsepipe] at hx
      cases hx
    · rw [parseexec] at hx
      cases hx
    · rw [parseblock] at hx
      cases hx
  | succ n ih =>
    obtain ⟨ihline, ihpipe, ihexec, ihblock⟩ := ih
    exact ⟨parseline_sound ihpipe ihline, parsepipe_sound ihexec ihpipe, parseexec_sound ihblock,
      parseblock_sound ihline⟩

/-! ### The parser finds what is in the grammar -/

variable {rest : List (Tok Word)} {rs : List (Char × Word)} {argv : List Word} {v : Level}

theorem Lex.peek_pos {toks : List Char} (h : Lex l s ts) (htoks : ∀ c ∈ toks, c ∈ symbols) (hs : Starts toks ts) :
    ∃ s', Shell.peek l s toks = (true, s') ∧ Lex l s' ts := by
  obtain ⟨b, s', hpeek, hlex, hb⟩ := h.peek toks htoks
  exact ⟨s', by rw [hpeek, hb.mpr hs], hlex⟩

theorem Lex.peek_neg {toks : List Char} (h : Lex l s ts) (htoks : ∀ c ∈ toks, c ∈ symbols)
    (hs : ¬ Starts toks ts) : ∃ s', Shell.peek l s toks = (false, s') ∧ Lex l s' ts := by
  obtain ⟨b, s', hpeek, hlex, hb⟩ := h.peek toks htoks
  exact ⟨s', by rw [hpeek, Bool.eq_false_iff.mpr fun ht => hs (hb.mp ht)], hlex⟩

theorem starts_cons {toks : List Char} (h : c ∈ toks) : Starts toks (.sym c :: ts) := ⟨c, ts, rfl, .inl h⟩

theorem not_starts_nil {toks : List Char} : ¬ Starts toks ([] : List (Tok Word)) := by
  rintro ⟨c, us, h, -⟩
  cases h

theorem not_starts_word {toks : List Char} {w : Word} : ¬ Starts toks (.word w :: ts) := by
  rintro ⟨c, us, h, -⟩
  cases h

/-- A token that begins with one of these symbols does not begin with one of those. -/
theorem not_starts {toks toks' : List Char} (h : ts = [] ∨ Starts toks ts)
    (hne : ∀ c ∈ toks, c ≠ '>' ∧ c ≠ '+' ∧ c ∉ toks') : ¬ Starts toks' ts := by
  rintro ⟨c, us, rfl, hc⟩
  obtain h | ⟨c', us', heq, hc'⟩ := h
  · cases h
  obtain rfl := Tok.sym.inj (List.cons.inj heq).1
  rcases hc' with hc' | ⟨-, hgt⟩
  · exact hc.elim (hne c hc').2.2 fun hp => (hne c hc').2.1 hp.1
  · exact (hne _ hgt).1 rfl

theorem redir_starts (hc : c ∈ ['<', '>', '+']) : Starts ['<', '>'] (.sym c :: ts) := by
  have hall : ∀ c ∈ ['<', '>', '+'], c ∈ ['<', '>'] ∨ c = '+' ∧ '>' ∈ ['<', '>'] := forall_mem (by decide)
  exact ⟨c, ts, rfl, hall c hc⟩

theorem not_starts_redir (hc : c ∈ ['<', '>', '+']) : ¬ Starts ['('] (.sym c :: ts) := by
  rintro ⟨c', us, heq, hc'⟩
  obtain rfl := Tok.sym.inj (List.cons.inj heq).1
  have hall : ∀ c ∈ ['<', '>', '+'], ¬ (c ∈ ['('] ∨ c = '+' ∧ '>' ∈ ['(']) := forall_mem (by decide)
  exact hall _ hc hc'

theorem parseredirs_cons {w : Word} (h : Lex l s (.sym c :: .word w :: ts)) (hc : c ∈ ['<', '>', '+']) :
    ∃ s', parseredirs l (n + 1) p s = parseredirs l n (redirect c p w) s' ∧ Lex l s' ts := by
  obtain ⟨s₁, hpeek, hlex⟩ := h.peek_pos (forall_mem (by decide)) (redir_starts hc)
  obtain ⟨hret, -, -, hlex₁⟩ := hlex.sym_ret
  obtain ⟨hword, rfl, hlex₂⟩ := hlex₁.word_ret
  refine ⟨_, ?_, hlex₂⟩
  rw [parseredirs, hpeek]
  show (if (gettoken l (gettoken l s₁).ps).ret ≠ 'a' then _
    else parseredirs l n (redirect (gettoken l s₁).ret p _) _) = _
  rw [if_neg (not_not.mpr hword), hret]

theorem parseredirs_end (h : Lex l s ts) (hts : ¬ Starts ['<', '>'] ts) :
    ∃ s', parseredirs l (n + 1) p s = .ok (p, s') ∧ Lex l s' ts := by
  obtain ⟨s₁, hpeek, hlex⟩ := h.peek_neg (forall_mem (by decide)) hts
  refine ⟨s₁, ?_, hlex⟩
  rw [parseredirs, hpeek]
  rfl

theorem parseredirs_complete (hr : Redirs us rs) (h : Lex l s (us ++ rest)) (hrest : ¬ Starts ['<', '>'] rest)
    (hn : us.length < n) : ∃ s', parseredirs l n p s = .ok (p.redirs rs, s') ∧ Lex l s' rest := by
  obtain ⟨n, rfl⟩ := Nat.exists_eq_succ_of_ne_zero (by omega : n ≠ 0)
  induction hr generalizing p s n with
  | nil => exact parseredirs_end h hrest
  | cons hc _ ih =>
    obtain ⟨s₁, hx, hlex⟩ := parseredirs_cons (n := n) (p := p) h hc
    rw [List.length_cons, List.length_cons] at hn
    obtain ⟨n, rfl⟩ := Nat.exists_eq_succ_of_ne_zero (by omega : n ≠ 0)
    rw [hx]
    exact ih hlex n (by omega)

/-- Redirections and then arguments are read, as `parseexec` does it again and again. -/
theorem parseargs_complete {m : Nat} (hi : Items us argv rs) (h : Lex l s (us ++ rest))
    (hrest : rest = [] ∨ Starts ['|', ')', '&', ';'] rest) (hmax : argc + argv.length < MAXARGS)
    (hm : us.length < m) (hn : us.length < n) :
    ∃ s', (do
      let (p, s) ← parseredirs l m p s
      parseargs l n argc p s) = .ok ((p.addArgs argv).redirs rs, s') ∧ Lex l s' rest := by
  obtain ⟨m, rfl⟩ := Nat.exists_eq_succ_of_ne_zero (by omega : m ≠ 0)
  obtain ⟨n, rfl⟩ := Nat.exists_eq_succ_of_ne_zero (by omega : n ≠ 0)
  induction hi generalizing p s m n argc with
  | nil =>
    obtain ⟨s₁, hx, hlex⟩ := parseredirs_end (n := m) (p := p) h (not_starts hrest (forall_mem (by decide)))
    rw [hx]
    show ∃ s', parseargs l (n + 1) argc p s₁ = .ok (p, s') ∧ _
    rcases hrest with rfl | hrest
    · obtain ⟨s₂, hpeek, hlex₂⟩ :=
        hlex.peek_neg (forall_mem (by decide) : ∀ c ∈ ['|', ')', '&', ';'], c ∈ symbols) not_starts_nil
      refine ⟨_, ?_, hlex₂.end_ps⟩
      rw [parseargs, hpeek]
      exact if_pos hlex₂.end_ret
    · obtain ⟨s₂, hpeek, hlex₂⟩ := hlex.peek_pos (forall_mem (by decide)) hrest
      refine ⟨s₂, ?_, hlex₂⟩
      rw [parseargs, hpeek]
      rfl
  | redir hc _ ih =>
    obtain ⟨s₁, hx, hlex⟩ := parseredirs_cons (n := m) (p := p) h hc
    rw [List.length_cons, List.length_cons] at hm hn
    obtain ⟨m, rfl⟩ := Nat.exists_eq_succ_of_ne_zero (by omega : m ≠ 0)
    obtain ⟨s₂, hx₂, hlex₂⟩ := ih hlex hmax m (by omega) n (by omega)
    refine ⟨s₂, ?_, hlex₂⟩
    rw [hx]
    rw [addArgs_redirect] at hx₂
    exact hx₂
  | word _ ih =>
    obtain ⟨s₁, hx, hlex⟩ := parseredirs_end (n := m) (p := p) h not_starts_word
    obtain ⟨s₂, hpeek, hlex₂⟩ :=
      hlex.peek_neg (forall_mem (by decide) : ∀ c ∈ ['|', ')', '&', ';'], c ∈ symbols) not_starts_word
    obtain ⟨hret, rfl, hlex₃⟩ := hlex₂.word_ret
    rw [List.length_cons] at hmax hn
    obtain ⟨n, rfl⟩ := Nat.exists_eq_succ_of_ne_zero (by omega : n ≠ 0)
    obtain ⟨s₃, hx₃, hlex₄⟩ := ih hlex₃ (show argc + 1 + _ < MAXARGS by omega) n (by omega) n (by omega)
    refine ⟨s₃, ?_, hlex₄⟩
    rw [hx]
    show parseargs l (n + 1 + 1) argc p s₁ = _
    rw [parseargs, hpeek]
    show (if (gettoken l s₂).ret = NUL then _ else if (gettoken l s₂).ret ≠ 'a' then _
      else if MAXARGS ≤ argc + 1 then _ else _) = _
    rw [if_neg (by rw [hret]; decide), if_neg (not_not.mpr hret), if_neg (by omega)]
    exact hx₃

theorem parsebacks_complete {k : Nat} (h : Lex l s (List.replicate k (.sym '&') ++ rest))
    (hrest : ¬ Starts ['&'] rest) (hn : k < n) :
    ∃ s', parsebacks l n p s = .ok (p.backs k, s') ∧ Lex l s' rest := by
  obtain ⟨n, rfl⟩ := Nat.exists_eq_succ_of_ne_zero (by omega : n ≠ 0)
  induction k generalizing p s n with
  | zero =>
    obtain ⟨s₁, hpeek, hlex⟩ := h.peek_neg (forall_mem (by decide)) hrest
    refine ⟨s₁, ?_, hlex⟩
    rw [parsebacks, hpeek]
    rfl
  | succ k ih =>
    obtain ⟨s₁, hpeek, hlex⟩ :=
      h.peek_pos (forall_mem (by decide)) (starts_cons (List.mem_singleton.mpr rfl) : Starts ['&'] _)
    obtain ⟨-, -, -, hlex₁⟩ := hlex.sym_ret
    obtain ⟨n, rfl⟩ := Nat.exists_eq_succ_of_ne_zero (by omega : n ≠ 0)
    obtain ⟨s₂, hx, hlex₂⟩ := ih (p := .back p) hlex₁ n (by omega)
    refine ⟨s₂, ?_, hlex₂⟩
    rw [parsebacks, hpeek]
    exact hx

/-- What can stand behind a command of this level. -/
def Follow : Level → List (Tok Word) → Prop
  | .line, ts => ts = [] ∨ Starts [')'] ts
  | .pipe, ts => ts = [] ∨ Starts [')', '&', ';'] ts
  | .exec, ts => ts = [] ∨ Starts ['|', ')', '&', ';'] ts

/-- The function of a level. -/
def parse (l : List Char) : Level → Nat → Nat → Except Stop (Cmd Word × Nat)
  | .line => parseline l
  | .pipe => parsepipe l
  | .exec => parseexec l

/-- So much is enough for the recursion of the parser. -/
def fuel : Level → Nat → Nat
  | .line, k => 4 * k + 4
  | .pipe, k => 4 * k + 3
  | .exec, k => 4 * k + 2

/-- The function finds this command if these tokens come first. -/
def Complete (l : List Char) (v : Level) (us : List (Tok Word)) (p : Cmd Word) (n : Nat) : Prop :=
  ∀ s rest, Lex l s (us ++ rest) → Follow v rest → ∃ s', parse l v n s = .ok (p, s') ∧ Lex l s' rest

theorem Starts.mono {toks toks' : List Char} (h : Starts toks ts) (hsub : ∀ c ∈ toks, c ∈ toks') :
    Starts toks' ts := by
  obtain ⟨c, us, heq, hc⟩ := h
  exact ⟨c, us, heq, hc.imp (hsub c) (And.imp_right (hsub _))⟩

/-- Behind a pipe there are `&`, and then what is behind the line. -/
theorem follow_backs {k : Nat} (h : Follow .line rest ∨ Starts [';'] rest) :
    Follow .pipe (List.replicate k (.sym '&') ++ rest) := by
  cases k with
  | zero =>
    rcases h with h | h
    · exact h.imp_right fun hs => hs.mono (forall_mem (by decide))
    · exact .inr (h.mono (forall_mem (by decide)))
  | succ k => exact .inr (starts_cons (by decide))

theorem parseline_backs {k : Nat} (ih : Complete l .pipe us p n) (hk : k < n)
    (h : Lex l s (us ++ List.replicate k (.sym '&') ++ rest)) (hrest : Follow .line rest ∨ Starts [';'] rest) :
    ∃ s', Lex l s' rest ∧ parseline l (n + 1) s = (do
      let (b, s) := peek l s' [';']
      if b then
        let (right, s) ← parseline l n (gettoken l s).ps
        .ok (.list (p.backs k) right, s)
      else .ok (p.backs k, s)) := by
  rw [List.append_assoc] at h
  obtain ⟨s₁, hx₁, hlex₁⟩ := ih s _ h (follow_backs hrest)
  have hback : ¬ Starts ['&'] rest := hrest.elim (fun hr => not_starts hr (forall_mem (by decide)))
    fun hr => not_starts (.inr hr) (forall_mem (by decide))
  obtain ⟨s₂, hx₂, hlex₂⟩ := parsebacks_complete (p := p) hlex₁ hback hk
  refine ⟨s₂, hlex₂, ?_⟩
  change parsepipe l n s = _ at hx₁
  rw [parseline, hx₁, ok_bind]
  dsimp only
  rw [hx₂, ok_bind]

theorem Complete.line {k : Nat} (ih : Complete l .pipe us p n) (hk : k < n) :
    Complete l .line (us ++ List.replicate k (.sym '&')) (p.backs k) (n + 1) := by
  intro s rest h hrest
  obtain ⟨s₁, hlex, hx⟩ := parseline_backs ih hk h (.inl hrest)
  have hnone : ¬ Starts [';'] rest := not_starts hrest (forall_mem (by decide))
  obtain ⟨s₂, hpeek, hlex₂⟩ := hlex.peek_neg (forall_mem (by decide)) hnone
  refine ⟨s₂, ?_, hlex₂⟩
  show parseline l (n + 1) s = _
  rw [hx, hpeek]
  rfl

theorem Complete.list {k : Nat} (ih : Complete l .pipe us p n) (hk : k < n) (ih' : Complete l .line ts q n) :
    Complete l .line (us ++ List.replicate k (.sym '&') ++ .sym ';' :: ts) (.list (p.backs k) q) (n + 1) := by
  intro s rest h hrest
  rw [List.append_assoc] at h
  have hsemi : Starts [';'] (.sym ';' :: ts ++ rest) := starts_cons List.mem_cons_self
  obtain ⟨s₁, hlex, hx⟩ := parseline_backs ih hk h (.inr hsemi)
  obtain ⟨s₂, hpeek, hlex₂⟩ := hlex.peek_pos (forall_mem (by decide)) hsemi
  obtain ⟨-, -, -, hlex₃⟩ := hlex₂.sym_ret
  obtain ⟨s₃, hx₃, hlex₄⟩ := ih' _ _ hlex₃ hrest
  refine ⟨s₃, ?_, hlex₄⟩
  change parseline l n _ = _ at hx₃
  show parseline l (n + 1) s = _
  rw [hx, hpeek]
  show (do
    let (right, s) ← parseline l n (gettoken l s₂).ps
    .ok (Cmd.list (p.backs k) right, s)) = _
  rw [hx₃]
  rfl

theorem Complete.one (ih : Complete l .exec us p n) : Complete l .pipe us p (n + 1) := by
  intro s rest h hrest
  obtain ⟨s₁, hx, hlex⟩ := ih s rest h (hrest.imp_right fun hs => hs.mono (forall_mem (by decide)))
  have hnone : ¬ Starts ['|'] rest := not_starts hrest (forall_mem (by decide))
  obtain ⟨s₂, hpeek, hlex₂⟩ := hlex.peek_neg (forall_mem (by decide)) hnone
  refine ⟨s₂, ?_, hlex₂⟩
  change parseexec l n s = _ at hx
  show parsepipe l (n + 1) s = _
  rw [parsepipe, hx, ok_bind]
  dsimp only
  rw [hpeek]
  rfl

theorem Complete.pipe (ih : Complete l .exec us p n) (ih' : Complete l .pipe ts q n) :
    Complete l .pipe (us ++ .sym '|' :: ts) (.pipe p q) (n + 1) := by
  intro s rest h hrest
  rw [List.append_assoc] at h
  have hbar : Starts ['|'] (.sym '|' :: ts ++ rest) := starts_cons List.mem_cons_self
  obtain ⟨s₁, hx, hlex⟩ := ih s _ h (.inr (hbar.mono (forall_mem (by decide))))
  obtain ⟨s₂, hpeek, hlex₂⟩ := hlex.peek_pos (forall_mem (by decide)) hbar
  obtain ⟨-, -, -, hlex₃⟩ := hlex₂.sym_ret
  obtain ⟨s₃, hx₃, hlex₄⟩ := ih' _ _ hlex₃ hrest
  refine ⟨s₃, ?_, hlex₄⟩
  change parseexec l n s = _ at hx
  change parsepipe l n _ = _ at hx₃
  show parsepipe l (n + 1) s = _
  rw [parsepipe, hx, ok_bind]
  dsimp only
  rw [hpeek]
  show (do
    let (right, s) ← parsepipe l n (gettoken l s₂).ps
    .ok (Cmd.pipe p right, s)) = _
  rw [hx₃]
  rfl

theorem Complete.exec (hi : Items us argv rs) (hmax : argv.length < MAXARGS) (hn : us.length < n) :
    Complete l .exec us ((Cmd.exec argv).redirs rs) (n + 1) := by
  intro s rest h hrest
  have hparen : ¬ Starts ['('] (us ++ rest) := by
    cases hi with
    | nil => exact not_starts hrest (forall_mem (by decide))
    | word => exact not_starts_word
    | redir hc => exact not_starts_redir hc
  obtain ⟨s₁, hpeek, hlex⟩ := h.peek_neg (forall_mem (by decide)) hparen
  obtain ⟨s₂, hx, hlex₂⟩ := parseargs_complete (p := .exec []) hi hlex hrest
    (by rwa [Nat.zero_add] : 0 + argv.length < MAXARGS) hn hn
  refine ⟨s₂, ?_, hlex₂⟩
  show parseexec l (n + 1) s = _
  rw [parseexec, hpeek]
  rw [addArgs_exec, List.nil_append] at hx
  exact hx

theorem Complete.block (ih : Complete l .line us p n) (hr : Redirs ts rs) (hn : ts.length < n) :
    Complete l .exec (.sym '(' :: us ++ .sym ')' :: ts) (p.redirs rs) (n + 2) := by
  intro s rest h hrest
  rw [List.append_assoc] at h
  have hclose : Starts [')'] (.sym ')' :: ts ++ rest) := starts_cons List.mem_cons_self
  have hopen : Starts ['('] (.sym '(' :: us ++ (.sym ')' :: ts ++ rest)) := starts_cons List.mem_cons_self
  obtain ⟨s₁, hpeek₁, hlex₁⟩ := h.peek_pos (forall_mem (by decide)) hopen
  obtain ⟨s₂, hpeek₂, hlex₂⟩ := hlex₁.peek_pos (forall_mem (by decide)) hopen
  obtain ⟨-, -, -, hlex₃⟩ := hlex₂.sym_ret
  obtain ⟨s₃, hx, hlex₄⟩ := ih _ _ hlex₃ (.inr hclose)
  obtain ⟨s₄, hpeek₃, hlex₅⟩ := hlex₄.peek_pos (forall_mem (by decide)) hclose
  obtain ⟨-, -, -, hlex₆⟩ := hlex₅.sym_ret
  obtain ⟨s₅, hx₂, hlex₇⟩ := parseredirs_complete (p := p) hr hlex₆ (not_starts hrest (forall_mem (by decide))) hn
  refine ⟨s₅, ?_, hlex₇⟩
  change parseline l n _ = _ at hx
  show parseexec l (n + 2) s = _
  rw [parseexec, hpeek₁]
  show parseblock l (n + 1) s₁ = _
  rw [parseblock, hpeek₂]
  show (do
    let (cmd, s) ← parseline l n (gettoken l s₂).ps
    let (b, s) := peek l s [')']
    if !b then .error (.panic "syntax - missing )")
    else parseredirs l n cmd (gettoken l s).ps) = _
  rw [hx, ok_bind]
  dsimp only
  rw [hpeek₃]
  exact hx₂

/-- The parser finds what is in the grammar. -/
theorem parse_complete (hd : Derives v us p) (hn : fuel v us.length ≤ n) : Complete l v us p n := by
  induction hd generalizing n with
  | line k _ ih =>
    simp only [fuel, List.length_append, List.length_replicate] at hn ih
    obtain ⟨n, rfl⟩ := Nat.exists_eq_succ_of_ne_zero (by omega : n ≠ 0)
    exact (ih (by omega)).line (by omega)
  | list k _ _ ih₁ ih₂ =>
    simp only [fuel, List.length_append, List.length_replicate, List.length_cons] at hn ih₁ ih₂
    obtain ⟨n, rfl⟩ := Nat.exists_eq_succ_of_ne_zero (by omega : n ≠ 0)
    exact (ih₁ (by omega)).list (by omega) (ih₂ (by omega))
  | one _ ih =>
    simp only [fuel] at hn ih
    obtain ⟨n, rfl⟩ := Nat.exists_eq_succ_of_ne_zero (by omega : n ≠ 0)
    exact (ih (by omega)).one
  | pipe _ _ ih₁ ih₂ =>
    simp only [fuel, List.length_append, List.length_cons] at hn ih₁ ih₂
    obtain ⟨n, rfl⟩ := Nat.exists_eq_succ_of_ne_zero (by omega : n ≠ 0)
    exact (ih₁ (by omega)).pipe (ih₂ (by omega))
  | exec hi hmax =>
    simp only [fuel] at hn
    obtain ⟨n, rfl⟩ := Nat.exists_eq_succ_of_ne_zero (by omega : n ≠ 0)
    exact .exec hi hmax (by omega)
  | block _ hr ih =>
    simp only [fuel, List.length_append, List.length_cons] at hn ih
    obtain ⟨n, rfl⟩ := Nat.exists_eq_add_of_le' (by omega : 2 ≤ n)
    exact (ih (by omega)).block hr (by omega)

/-! ### The parser ends -/

/-- No loop goes on for ever. -/
def Ends {α : Type} (x : Except Stop α) : Prop := x ≠ .error .diverges

theorem Ends.bind {α β : Type} {x : Except Stop α} {f : α → Except Stop β} (hx : Ends x)
    (hf : ∀ a, x = .ok a → Ends (f a)) : Ends (x >>= f) := by
  cases x with
  | error e => exact fun h => hx (congrArg _ (Except.error.inj h))
  | ok a => exact hf a rfl

theorem ends_ok {α : Type} {a : α} : Ends (.ok a : Except Stop α) := nofun

theorem ends_panic {α : Type} {msg : String} : Ends (.error (.panic msg) : Except Stop α) := nofun

theorem parseredirs_ends (h : Lex l s ts) (hn : ts.length < n) : Ends (parseredirs l n p s) := by
  induction n generalizing p s ts with
  | zero => omega
  | succ n ih =>
    obtain ⟨b, s₁, hpeek, hlex, hb⟩ := h.peek ['<', '>'] (forall_mem (by decide))
    rw [parseredirs, hpeek]
    cases b with
    | false => exact ends_ok
    | true =>
      obtain ⟨c, us, rfl, -⟩ := hb.mp rfl
      obtain ⟨-, -, -, hlex₁⟩ := hlex.sym_ret
      show Ends (if (gettoken l (gettoken l s₁).ps).ret ≠ 'a' then _ else parseredirs l n _ _)
      split
      · exact ends_panic
      · rename_i hfile
        obtain ⟨vs, rfl, hlex₂⟩ := hlex₁.of_word (not_not.mp hfile)
        rw [List.length_cons, List.length_cons] at hn
        exact ih hlex₂ (by omega)

theorem parseargs_ends (h : Lex l s ts) (hn : ts.length < n) : Ends (parseargs l n argc p s) := by
  induction n generalizing argc p s ts with
  | zero => omega
  | succ n ih =>
    obtain ⟨b, s₁, hpeek, hlex, -⟩ := h.peek ['|', ')', '&', ';'] (forall_mem (by decide))
    rw [parseargs, hpeek]
    cases b with
    | true => exact ends_ok
    | false =>
      show Ends (if (gettoken l s₁).ret = NUL then _ else if (gettoken l s₁).ret ≠ 'a' then _
        else if MAXARGS ≤ argc + 1 then _ else _)
      split
      · exact ends_ok
      · split
        · exact ends_panic
        · rename_i hret
          split
          · exact ends_panic
          · obtain ⟨us, rfl, hlex₁⟩ := hlex.of_word (not_not.mp hret)
            rw [List.length_cons] at hn
            refine (parseredirs_ends hlex₁ (by omega)).bind fun ⟨q, s₂⟩ hx => ?_
            obtain ⟨us₁, rest, rfl, -, hlex₂⟩ := parseredirs_sound hlex₁ hx
            rw [List.length_append] at hn
            exact ih hlex₂ (by omega)

theorem parsebacks_ends (h : Lex l s ts) (hn : ts.length < n) : Ends (parsebacks l n p s) := by
  induction n generalizing p s ts with
  | zero => omega
  | succ n ih =>
    obtain ⟨b, s₁, hpeek, hlex, hb⟩ := h.peek ['&'] (forall_mem (by decide))
    rw [parsebacks, hpeek]
    cases b with
    | false => exact ends_ok
    | true =>
      obtain ⟨us, rfl⟩ := starts_one (by decide) (hb.mp rfl)
      obtain ⟨-, -, -, hlex₁⟩ := hlex.sym_ret
      rw [List.length_cons] at hn
      exact ih hlex₁ (by omega)

/-- With enough fuel no function of the parser goes on for ever. -/
theorem parse_ends (l : List Char) (n : Nat) : ∀ s ts, Lex l s ts →
    (4 * ts.length + 4 ≤ n → Ends (parseline l n s)) ∧ (4 * ts.length + 3 ≤ n → Ends (parsepipe l n s)) ∧
    (4 * ts.length + 2 ≤ n → Ends (parseexec l n s)) ∧ (4 * ts.length + 1 ≤ n → Ends (parseblock l n s)) := by
  induction n with
  | zero => exact fun s ts _ => ⟨by omega, by omega, by omega, by omega⟩
  | succ n ih =>
    obtain ⟨sline, spipe, sexec, -⟩ := parse_sound l n
    refine fun s ts h => ⟨fun hn => ?_, fun hn => ?_, fun hn => ?_, fun hn => ?_⟩
    · rw [parseline]
      refine ((ih s ts h).2.1 (by omega)).bind fun ⟨p₁, s₁⟩ hx₁ => ?_
      obtain ⟨us₁, rest, rfl, -, hlex₁⟩ := spipe _ _ _ _ h hx₁
      rw [List.length_append] at hn
      refine (parsebacks_ends hlex₁ (by omega)).bind fun ⟨p₂, s₂⟩ hx₂ => ?_
      obtain ⟨us₂, rest, rfl, -, hlex₂⟩ := parsebacks_sound hlex₁ hx₂
      obtain ⟨b, s₃, hpeek, hlex₃, hb⟩ := hlex₂.peek [';'] (forall_mem (by decide))
      dsimp only
      rw [hpeek]
      cases b with
      | false => exact ends_ok
      | true =>
        obtain ⟨vs, rfl⟩ := starts_one (by decide) (hb.mp rfl)
        obtain ⟨-, -, -, hlex₄⟩ := hlex₃.sym_ret
        rw [List.length_append, List.length_cons] at hn
        exact ((ih _ _ hlex₄).1 (by omega)).bind fun _ _ => ends_ok
    · rw [parsepipe]
      refine ((ih s ts h).2.2.1 (by omega)).bind fun ⟨p₁, s₁⟩ hx₁ => ?_
      obtain ⟨us₁, rest, rfl, -, hlex₁⟩ := sexec _ _ _ _ h hx₁
      obtain ⟨b, s₂, hpeek, hlex₂, hb⟩ := hlex₁.peek ['|'] (forall_mem (by decide))
      dsimp only
      rw [hpeek]
      cases b with
      | false => exact ends_ok
      | true =>
        obtain ⟨vs, rfl⟩ := starts_one (by decide) (hb.mp rfl)
        obtain ⟨-, -, -, hlex₃⟩ := hlex₂.sym_ret
        rw [List.length_append, List.length_cons] at hn
        exact ((ih _ _ hlex₃).2.1 (by omega)).bind fun _ _ => ends_ok
    · obtain ⟨b, s₁, hpeek, hlex, -⟩ := h.peek ['('] (forall_mem (by decide))
      rw [parseexec, hpeek]
      cases b with
      | true => exact (ih _ _ hlex).2.2.2 (by omega)
      | false =>
        refine (parseredirs_ends hlex (by omega)).bind fun ⟨p₁, s₂⟩ hx₁ => ?_
        obtain ⟨us₁, rest, rfl, -, hlex₁⟩ := parseredirs_sound hlex hx₁
        rw [List.length_append] at hn
        exact parseargs_ends hlex₁ (by omega)
    · obtain ⟨b, s₁, hpeek, hlex, hb⟩ := h.peek ['('] (forall_mem (by decide))
      rw [parseblock, hpeek]
      cases b with
      | false => exact ends_panic
      | true =>
        obtain ⟨us, rfl⟩ := starts_one (by decide) (hb.mp rfl)
        obtain ⟨-, -, -, hlex₁⟩ := hlex.sym_ret
        rw [List.length_cons] at hn
        refine ((ih _ _ hlex₁).1 (by omega)).bind fun ⟨p₁, s₂⟩ hx₁ => ?_
        obtain ⟨us₁, rest, rfl, -, hlex₂⟩ := sline _ _ _ _ hlex₁ hx₁
        obtain ⟨b', s₃, hpeek', hlex₃, hb'⟩ := hlex₂.peek [')'] (forall_mem (by decide))
        dsimp only
        rw [hpeek']
        cases b' with
        | false => exact ends_panic
        | true =>
          obtain ⟨vs, rfl⟩ := starts_one (by decide) (hb'.mp rfl)
          obtain ⟨-, -, -, hlex₄⟩ := hlex₃.sym_ret
          rw [List.length_append, List.length_cons] at hn
          exact parseredirs_ends hlex₄ (by omega)

end Xv6.Shell
