import Why3.Core.NumberText
import Why3.Lib.ExceptFold

/-!
# Command lines

The splitting of a command line into its arguments, after `src/util/cmdline.ml`. A machine of
seven states reads the characters, and one blank more for the end of the line.

The blank is also read after a backslash at the end of the line, which it escapes: outside quotes
the machine is then in the state in which the source expects not to end.
-/

namespace Why3.Cmdline

open Lib List

inductive CmdlineExn where
  | badEscape (s : Text) (c : Char)
  | unfinishedEscape (s : Text)
  | unclosedQuote (s : Text)
  | unclosedDQuote (s : Text)
  | emptyCommandLine
  | assertFailure

def isBlank (c : Char) : Bool := c = ' ' || c = '\t' || c = '\n' || c = '\r'

def escape (s : Text) (c : Char) : Except CmdlineExn Char :=
  if c = 't' then .ok '\t'
  else if c = 'n' then .ok '\n'
  else if c = 'r' then .ok '\r'
  else if c = '\'' || c = '"' || c = '\\' || c = ' ' then .ok c
  else .error (.badEscape s c)

inductive FsmState where
  | normal
  | blank
  | quote
  | dQuote
  | escape
  | qEscape
  | dQEscape
  deriving DecidableEq

/-- The machine: the arguments read, the last one first, the current argument and the state. -/
structure Fsm where
  argv : List Text
  curArg : Text
  cstate : FsmState

def Fsm.addChar (m : Fsm) (c : Char) (st : FsmState) : Fsm := ⟨m.argv, m.curArg ++ [c], st⟩

def normal (m : Fsm) (c : Char) : Fsm :=
  if c = '\'' then { m with cstate := .quote }
  else if c = '"' then { m with cstate := .dQuote }
  else if c = '\\' then { m with cstate := .escape }
  else if isBlank c then ⟨m.curArg :: m.argv, [], .blank⟩
  else m.addChar c m.cstate

def blank (m : Fsm) (c : Char) : Fsm :=
  if c = '\'' then { m with cstate := .quote }
  else if c = '"' then { m with cstate := .dQuote }
  else if c = '\\' then { m with cstate := .escape }
  else if isBlank c then m
  else m.addChar c .normal

def quoted (q : Char) (esc : FsmState) (m : Fsm) (c : Char) : Fsm :=
  if c = q then { m with cstate := .normal }
  else if c = '\\' then { m with cstate := esc }
  else m.addChar c m.cstate

def quote : Fsm → Char → Fsm := quoted '\'' .qEscape

def dQuote : Fsm → Char → Fsm := quoted '"' .dQEscape

def escaped (s : Text) (st : FsmState) (m : Fsm) (c : Char) : Except CmdlineExn Fsm :=
  (escape s c).map fun c => m.addChar c st

def fsm (s : Text) (m : Fsm) (c : Char) : Except CmdlineExn Fsm :=
  match m.cstate with
  | .normal => .ok (normal m c)
  | .blank => .ok (blank m c)
  | .quote => .ok (quote m c)
  | .dQuote => .ok (dQuote m c)
  | .escape => escaped s .normal m c
  | .qEscape => escaped s .quote m c
  | .dQEscape => escaped s .dQuote m c

def finish (s : Text) (m : Fsm) : Except CmdlineExn (List Text) :=
  match m.cstate with
  | .normal => .error .assertFailure
  | .blank => if m.argv = [] then .error .emptyCommandLine else .ok m.argv.reverse
  | .quote => .error (.unclosedQuote s)
  | .dQuote => .error (.unclosedDQuote s)
  | .escape | .qEscape | .dQEscape => .error (.unfinishedEscape s)

def cmdlineSplit (s : Text) : Except CmdlineExn (List Text) := do
  let m ← s.foldlM (fsm s) ⟨[], [], .blank⟩
  finish s (← fsm s m ' ')

/-! ## Arguments between quotes -/

/-- An argument between the quotes `q`, these and backslashes being escaped. -/
def quoteArg (q : Char) (arg : Text) : Text :=
  q :: arg.flatMap (fun c => if c = '\\' ∨ c = q then ['\\', c] else [c]) ++ [q]

inductive Written : List Text → Text → Prop where
  | last {q : Char} {arg : Text} (hq : q = '\'' ∨ q = '"') : Written [arg] (quoteArg q arg)
  | cons {q : Char} {arg blanks line : Text} {args : List Text} (hq : q = '\'' ∨ q = '"')
      (hne : blanks ≠ []) (hblanks : ∀ c ∈ blanks, isBlank c) (h : Written args line) :
      Written (arg :: args) (quoteArg q arg ++ blanks ++ line)

/-- Between the quotes `q` the machine is in the state `st`, after a backslash in `esc`. -/
structure Between (s : Text) (q : Char) (st esc : FsmState) : Prop where
  quote : q = '\'' ∨ q = '"'
  enter : ∀ m, m.cstate = .normal ∨ m.cstate = .blank → fsm s m q = .ok { m with cstate := st }
  inside : ∀ m c, m.cstate = st → fsm s m c = .ok (quoted q esc m c)
  escaped : ∀ m c, m.cstate = esc → fsm s m c = escaped s st m c

variable {s t line blanks body : Text} {argv args : List Text} {q c : Char} {m : Fsm}
  {x : CmdlineExn} {st esc : FsmState}

theorem between_quote (s : Text) : Between s '\'' .quote .qEscape where
  quote := .inl rfl
  enter m hm := by rcases hm with hm | hm <;> rw [fsm, hm] <;> rfl
  inside m c hm := by rw [fsm, hm]; rfl
  escaped m c hm := by rw [fsm, hm]

theorem between_dQuote (s : Text) : Between s '"' .dQuote .dQEscape where
  quote := .inr rfl
  enter m hm := by rcases hm with hm | hm <;> rw [fsm, hm] <;> rfl
  inside m c hm := by rw [fsm, hm]; rfl
  escaped m c hm := by rw [fsm, hm]

theorem exists_between (hq : q = '\'' ∨ q = '"') (s : Text) : ∃ st esc, Between s q st esc := by
  rcases hq with rfl | rfl
  · exact ⟨_, _, between_quote s⟩
  · exact ⟨_, _, between_dQuote s⟩

namespace Between

variable (hb : Between s q st esc)
include hb

theorem ne : '\\' ≠ q := by
  rcases hb.quote with rfl | rfl <;> decide

theorem backslash (hm : m.cstate = st) : fsm s m '\\' = .ok { m with cstate := esc } := by
  rw [hb.inside m _ hm, quoted, if_neg hb.ne, if_pos rfl]

theorem leave (hm : m.cstate = st) : fsm s m q = .ok { m with cstate := .normal } := by
  rw [hb.inside m _ hm, quoted, if_pos rfl]

end Between

theorem foldlM_quoted (hb : Between s q st esc) (arg cur : Text) :
    (arg.flatMap fun c => if c = '\\' ∨ c = q then ['\\', c] else [c]).foldlM (fsm s)
      ⟨argv, cur, st⟩ = .ok ⟨argv, cur ++ arg, st⟩ := by
  induction arg generalizing cur with
  | nil => simp [pure, Except.pure]
  | cons c arg ih =>
    have hc : (if c = '\\' ∨ c = q then ['\\', c] else [c]).foldlM (fsm s) ⟨argv, cur, st⟩ =
        .ok ⟨argv, cur ++ [c], st⟩ := by
      split
      · next h =>
          have hescape : escape s c = .ok c := by
            rcases h with rfl | rfl
            · rfl
            · rcases hb.quote with rfl | rfl <;> rfl
          refine foldlM_cons_eq_ok.mpr ⟨_, hb.backslash rfl, foldlM_cons_eq_ok.mpr ⟨_, ?_, rfl⟩⟩
          rw [hb.escaped _ _ rfl, escaped, hescape]
          rfl
      · next h =>
          rw [not_or] at h
          refine foldlM_cons_eq_ok.mpr ⟨_, ?_, rfl⟩
          rw [hb.inside _ _ rfl, quoted, if_neg h.2, if_neg h.1]
          rfl
    rw [flatMap_cons]
    exact foldlM_append_eq_ok.mpr ⟨_, hc, by simpa using ih (cur ++ [c])⟩

/-- An argument between quotes is the current argument afterwards. -/
theorem foldlM_quoteArg (hq : q = '\'' ∨ q = '"') (arg : Text) :
    (quoteArg q arg).foldlM (fsm s) ⟨argv, [], .blank⟩ = .ok ⟨argv, arg, .normal⟩ := by
  obtain ⟨st, esc, hb⟩ := exists_between hq s
  rw [quoteArg, cons_append]
  refine foldlM_cons_eq_ok.mpr ⟨_, hb.enter _ (.inr rfl), ?_⟩
  exact foldlM_concat_eq_ok.mpr ⟨_, foldlM_quoted hb arg [], hb.leave rfl⟩

theorem isBlank_ne (h : isBlank c) : c ≠ '\'' ∧ c ≠ '"' ∧ c ≠ '\\' := by
  simp only [isBlank, Bool.or_eq_true, decide_eq_true_eq] at h
  rcases h with ((rfl | rfl) | rfl) | rfl <;> decide

theorem fsm_blank (h : isBlank c) (argv : List Text) :
    fsm s ⟨argv, [], .blank⟩ c = .ok ⟨argv, [], .blank⟩ := by
  obtain ⟨h₁, h₂, h₃⟩ := isBlank_ne h
  simp [fsm, blank, h, h₁, h₂, h₃]

theorem fsm_normal (h : isBlank c) (argv : List Text) (arg : Text) :
    fsm s ⟨argv, arg, .normal⟩ c = .ok ⟨arg :: argv, [], .blank⟩ := by
  obtain ⟨h₁, h₂, h₃⟩ := isBlank_ne h
  simp [fsm, normal, h, h₁, h₂, h₃]

theorem foldlM_blanks (h : ∀ c ∈ blanks, isBlank c) :
    blanks.foldlM (fsm s) ⟨argv, [], .blank⟩ = .ok ⟨argv, [], .blank⟩ := by
  induction blanks with
  | nil => rfl
  | cons c blanks ih =>
    rw [forall_mem_cons] at h
    exact foldlM_cons_eq_ok.mpr ⟨_, fsm_blank h.1 argv, ih h.2⟩

theorem Written.foldlM (h : Written args line) (argv : List Text) :
    ∃ rest arg, args = rest ++ [arg] ∧
      line.foldlM (fsm s) ⟨argv, [], .blank⟩ = .ok ⟨rest.reverse ++ argv, arg, .normal⟩ := by
  induction h generalizing argv with
  | @last q arg hq => exact ⟨[], arg, rfl, foldlM_quoteArg hq arg⟩
  | @cons q arg blanks line args hq hne hblanks h ih =>
    obtain ⟨rest, last, rfl, hline⟩ := ih (arg :: argv)
    refine ⟨arg :: rest, last, rfl, ?_⟩
    cases blanks with
    | nil => exact absurd rfl hne
    | cons c blanks =>
      rw [forall_mem_cons] at hblanks
      refine foldlM_append_eq_ok.mpr ⟨⟨arg :: argv, [], .blank⟩, ?_, by simpa using hline⟩
      exact foldlM_append_eq_ok.mpr ⟨_, foldlM_quoteArg hq arg,
        foldlM_cons_eq_ok.mpr ⟨_, fsm_normal hblanks.1 argv arg, foldlM_blanks hblanks.2⟩⟩

theorem cmdlineSplit_written (h : Written args line) : cmdlineSplit line = .ok args := by
  obtain ⟨rest, arg, rfl, hline⟩ := h.foldlM (s := line) []
  refine bind₂_eq_ok.mpr ⟨_, hline, _, fsm_normal rfl _ _, ?_⟩
  simp [finish]

/-! ## The ends of a line

Lines without wrong escapes are described apart from the machine: characters, escapes and text
between quotes, one after the other. -/

def escapes : List Char := ['t', 'n', 'r', '\'', '"', '\\', ' ']

inductive Inside (q : Char) : Text → Prop where
  | nil : Inside q []
  | char {s : Text} {c : Char} (h : Inside q s) (hc : c ≠ q ∧ c ≠ '\\') : Inside q (s ++ [c])
  | escape {s : Text} {c : Char} (h : Inside q s) (hc : c ∈ escapes) : Inside q (s ++ ['\\', c])

inductive Pieces : Text → Prop where
  | nil : Pieces []
  | char {s : Text} {c : Char} (h : Pieces s) (hc : c ≠ '\'' ∧ c ≠ '"' ∧ c ≠ '\\') :
      Pieces (s ++ [c])
  | escape {s : Text} {c : Char} (h : Pieces s) (hc : c ∈ escapes) : Pieces (s ++ ['\\', c])
  | quoted {s body : Text} {q : Char} (h : Pieces s) (hq : q = '\'' ∨ q = '"')
      (hbody : Inside q body) : Pieces (s ++ q :: body ++ [q])

def InEscape (s : Text) : Prop := ∃ p, Pieces p ∧ s = p ++ ['\\']

def Opened (q : Char) (rest s : Text) : Prop :=
  ∃ p body, Pieces p ∧ Inside q body ∧ s = p ++ q :: body ++ rest

def InQuote (q : Char) (s : Text) : Prop := Opened q [] s ∨ Opened q ['\\'] s

structure SplitsLine (s : Text) : Prop where
  outcome : (∃ args, args ≠ [] ∧ cmdlineSplit s = .ok args) ∨
    cmdlineSplit s = .error .emptyCommandLine ∨ (∃ c, cmdlineSplit s = .error (.badEscape s c)) ∨
    ∃ x ∈ [CmdlineExn.unfinishedEscape s, .unclosedQuote s, .unclosedDQuote s],
      cmdlineSplit s = .error x
  unfinishedEscape : cmdlineSplit s = .error (.unfinishedEscape s) ↔ InEscape s
  unclosedQuote : cmdlineSplit s = .error (.unclosedQuote s) ↔ InQuote '\'' s
  unclosedDQuote : cmdlineSplit s = .error (.unclosedDQuote s) ↔ InQuote '"' s

theorem escape_eq_ok : (∃ c', escape s c = .ok c') ↔ c ∈ escapes := by
  unfold escape escapes
  split_ifs with h₁ h₂ h₃ h₄
  · simp [h₁]
  · simp [h₂]
  · simp [h₃]
  · simp only [Bool.or_eq_true, decide_eq_true_eq] at h₄
    simp [h₁, h₂, h₃]
    tauto
  · simp only [Bool.or_eq_true, decide_eq_true_eq] at h₄
    simp [h₁, h₂, h₃]
    tauto

theorem fsm_error (h : fsm s m c = .error x) : ∃ c, x = .badEscape s c := by
  have hesc : ∀ st, escaped s st m c = .error x → ∃ c, x = .badEscape s c := by
    intro st h
    unfold escaped escape at h
    split_ifs at h <;> cases h
    exact ⟨c, rfl⟩
  unfold fsm at h
  split at h
  all_goals first | exact hesc _ h | cases h

theorem foldlM_error {l : Text} (h : l.foldlM (fsm s) m = .error x) : ∃ c, x = .badEscape s c := by
  induction l generalizing m with
  | nil => cases h
  | cons c l ih =>
    rw [foldlM_cons] at h
    rcases bind_eq_error.mp h with h | ⟨m', -, h⟩
    · exact fsm_error h
    · exact ih h

/-! ### From the description to the machine -/

theorem foldlM_escape (st esc : FsmState)
    (hesc : ∀ m c, m.cstate = esc → fsm s m c = escaped s st m c)
    (hc : c ∈ escapes) (hm : m.cstate = esc) : ∃ m', fsm s m c = .ok m' ∧ m'.cstate = st := by
  obtain ⟨c', hc'⟩ := escape_eq_ok.mpr hc
  refine ⟨m.addChar c' st, ?_, rfl⟩
  rw [hesc m c hm, escaped, hc']
  rfl

theorem Inside.foldlM (hb : Between s q st esc) (h : Inside q body) (hm : m.cstate = st) :
    ∃ m', body.foldlM (fsm s) m = .ok m' ∧ m'.cstate = st := by
  induction h with
  | nil => exact ⟨m, rfl, hm⟩
  | @char t c _ hc ih =>
    obtain ⟨m₁, h₁, hm₁⟩ := ih
    refine ⟨_, foldlM_concat_eq_ok.mpr ⟨m₁, h₁, hb.inside m₁ c hm₁⟩, ?_⟩
    rw [quoted, if_neg hc.1, if_neg hc.2]
    exact hm₁
  | @escape t c _ hc ih =>
    obtain ⟨m₁, h₁, hm₁⟩ := ih
    obtain ⟨m₂, h₂, hm₂⟩ := foldlM_escape _ _ hb.escaped hc (m := { m₁ with cstate := esc }) rfl
    exact ⟨m₂, foldlM_append_eq_ok.mpr ⟨m₁, h₁, foldlM_cons_eq_ok.mpr ⟨_, hb.backslash hm₁,
      foldlM_cons_eq_ok.mpr ⟨m₂, h₂, rfl⟩⟩⟩, hm₂⟩

theorem fsm_backslash (hm : m.cstate = .normal ∨ m.cstate = .blank) :
    fsm s m '\\' = .ok { m with cstate := .escape } := by
  rcases hm with hm | hm
  all_goals
    rw [fsm, hm]
    rfl

theorem Pieces.foldlM (h : Pieces t) :
    ∃ m, t.foldlM (fsm s) ⟨[], [], .blank⟩ = .ok m ∧ (m.cstate = .normal ∨ m.cstate = .blank) := by
  induction h with
  | nil => exact ⟨_, rfl, .inr rfl⟩
  | @char t c _ hc ih =>
    obtain ⟨m, hm, hst⟩ := ih
    have hstep : ∃ m', fsm s m c = .ok m' ∧ (m'.cstate = .normal ∨ m'.cstate = .blank) := by
      rcases hst with hst | hst
      · refine ⟨normal m c, by rw [fsm, hst], ?_⟩
        rw [normal, if_neg hc.1, if_neg hc.2.1, if_neg hc.2.2]
        split
        · exact .inr rfl
        · exact .inl hst
      · refine ⟨blank m c, by rw [fsm, hst], ?_⟩
        rw [blank, if_neg hc.1, if_neg hc.2.1, if_neg hc.2.2]
        split
        · exact .inr hst
        · exact .inl rfl
    obtain ⟨m', hm', hst'⟩ := hstep
    exact ⟨m', foldlM_concat_eq_ok.mpr ⟨m, hm, hm'⟩, hst'⟩
  | @escape t c _ hc ih =>
    obtain ⟨m, hm, hst⟩ := ih
    obtain ⟨m', hm', hst'⟩ := foldlM_escape (s := s) .normal .escape
      (fun m c h => by rw [fsm, h]) hc (m := { m with cstate := .escape }) rfl
    exact ⟨m', foldlM_append_eq_ok.mpr ⟨m, hm, foldlM_cons_eq_ok.mpr ⟨_, fsm_backslash hst,
      foldlM_cons_eq_ok.mpr ⟨m', hm', rfl⟩⟩⟩, .inl hst'⟩
  | @quoted t body q _ hq hbody ih =>
    obtain ⟨m, hm, hst⟩ := ih
    obtain ⟨st, esc, hb⟩ := exists_between hq s
    obtain ⟨m', hm', hst'⟩ := hbody.foldlM hb (m := { m with cstate := st }) rfl
    refine ⟨_, foldlM_concat_eq_ok.mpr ⟨m', ?_, hb.leave hst'⟩, .inl rfl⟩
    exact foldlM_append_eq_ok.mpr ⟨m, hm, foldlM_cons_eq_ok.mpr ⟨_, hb.enter m hst, hm'⟩⟩

theorem InEscape.foldlM (h : InEscape s) :
    ∃ m, s.foldlM (fsm s) ⟨[], [], .blank⟩ = .ok m ∧ m.cstate = .escape := by
  obtain ⟨p, hp, heq⟩ := h
  obtain ⟨m, hm, hst⟩ := hp.foldlM (s := s)
  refine ⟨{ m with cstate := .escape }, ?_, rfl⟩
  nth_rewrite 2 [heq]
  exact foldlM_concat_eq_ok.mpr ⟨m, hm, fsm_backslash hst⟩

theorem InQuote.foldlM (hb : Between s q st esc) (h : InQuote q s) :
    ∃ m, s.foldlM (fsm s) ⟨[], [], .blank⟩ = .ok m ∧ (m.cstate = st ∨ m.cstate = esc) := by
  have hopen : ∀ rest, Opened q rest s → ∃ m', s.foldlM (fsm s) ⟨[], [], .blank⟩ =
      rest.foldlM (fsm s) m' ∧ m'.cstate = st := by
    rintro rest ⟨p, body, hp, hbody, heq⟩
    obtain ⟨m, hm, hst⟩ := hp.foldlM (s := s)
    obtain ⟨m', hm', hst'⟩ := hbody.foldlM hb (m := { m with cstate := st }) rfl
    have hfold : (p ++ q :: body).foldlM (fsm s) ⟨[], [], .blank⟩ = .ok m' :=
      foldlM_append_eq_ok.mpr ⟨m, hm, foldlM_cons_eq_ok.mpr ⟨_, hb.enter m hst, hm'⟩⟩
    refine ⟨m', ?_, hst'⟩
    nth_rewrite 2 [heq]
    rw [foldlM_append, hfold]
    rfl
  rcases h with h | h
  · obtain ⟨m', hfold, hst⟩ := hopen _ h
    exact ⟨m', hfold, .inl hst⟩
  · obtain ⟨m', hfold, hst⟩ := hopen _ h
    exact ⟨_, hfold.trans (foldlM_cons_eq_ok.mpr ⟨_, hb.backslash hst, rfl⟩), .inr rfl⟩

/-! ### From the machine to the description -/

def Ends (t : Text) : FsmState → Prop
  | .normal | .blank => Pieces t
  | .quote => Opened '\'' [] t
  | .dQuote => Opened '"' [] t
  | .escape => InEscape t
  | .qEscape => Opened '\'' ['\\'] t
  | .dQEscape => Opened '"' ['\\'] t

theorem escaped_eq_ok {m' : Fsm} (h : escaped s st m c = .ok m') :
    c ∈ escapes ∧ m'.cstate = st := by
  unfold escaped at h
  cases hc : escape s c with
  | error x => simp [hc, Except.map] at h
  | ok c' =>
    simp only [hc, Except.map, Except.ok.injEq] at h
    exact ⟨escape_eq_ok.mp ⟨c', hc⟩, h ▸ rfl⟩

theorem Opened.escape (h : Opened q ['\\'] t) (hc : c ∈ escapes) : Opened q [] (t ++ [c]) := by
  obtain ⟨p, body, hp, hbody, rfl⟩ := h
  exact ⟨p, _, hp, hbody.escape hc, by simp⟩

theorem quoted_ends (st : FsmState) (hq : q = '\'' ∨ q = '"')
    (hst : ∀ t, Opened q [] t → Ends t st) (hesc : ∀ t, Opened q ['\\'] t → Ends t esc)
    (hm : m.cstate = st) (h : Opened q [] t) : Ends (t ++ [c]) (quoted q esc m c).cstate := by
  obtain ⟨p, body, hp, hbody, rfl⟩ := h
  rw [append_nil]
  unfold quoted
  split
  · next hc =>
      rw [hc]
      exact hp.quoted hq hbody
  · next hc =>
      split
      · next hb =>
          rw [hb]
          exact hesc _ ⟨p, body, hp, hbody, rfl⟩
      · next hb =>
          have hopen : Opened q [] (p ++ q :: body ++ [c]) :=
            ⟨p, _, hp, hbody.char ⟨hc, hb⟩, by simp⟩
          exact (congrArg (Ends _) hm).mpr (hst _ hopen)

theorem Ends.step {m' : Fsm} (h : Ends t m.cstate) (hs : fsm s m c = .ok m') :
    Ends (t ++ [c]) m'.cstate := by
  have hopen : ∀ q, Pieces t → Opened q [] (t ++ [q]) := fun q ht => ⟨t, [], ht, .nil, by simp⟩
  unfold fsm at hs
  cases hst : m.cstate with
  | normal =>
    rw [hst] at h hs
    obtain rfl := Except.ok.inj hs
    unfold normal
    split_ifs with h₁ h₂ h₃ h₄
    · exact h₁ ▸ hopen _ h
    · exact h₂ ▸ hopen _ h
    · exact ⟨t, h, by rw [h₃]⟩
    · exact Pieces.char h ⟨h₁, h₂, h₃⟩
    · exact (congrArg (Ends _) hst).mpr (Pieces.char h ⟨h₁, h₂, h₃⟩)
  | blank =>
    rw [hst] at h hs
    obtain rfl := Except.ok.inj hs
    unfold blank
    split_ifs with h₁ h₂ h₃ h₄
    · exact h₁ ▸ hopen _ h
    · exact h₂ ▸ hopen _ h
    · exact ⟨t, h, by rw [h₃]⟩
    · exact (congrArg (Ends _) hst).mpr (Pieces.char h ⟨h₁, h₂, h₃⟩)
    · exact Pieces.char h ⟨h₁, h₂, h₃⟩
  | quote =>
    rw [hst] at h hs
    obtain rfl := Except.ok.inj hs
    exact quoted_ends .quote (.inl rfl) (fun _ h => h) (fun _ h => h) hst h
  | dQuote =>
    rw [hst] at h hs
    obtain rfl := Except.ok.inj hs
    exact quoted_ends .dQuote (.inr rfl) (fun _ h => h) (fun _ h => h) hst h
  | escape =>
    rw [hst] at h hs
    obtain ⟨p, hp, rfl⟩ := h
    obtain ⟨hc, hst'⟩ := escaped_eq_ok hs
    rw [hst', append_assoc]
    exact hp.escape hc
  | qEscape | dQEscape =>
    rw [hst] at h hs
    obtain ⟨hc, hst'⟩ := escaped_eq_ok hs
    rw [hst']
    exact h.escape hc

theorem ends_of_foldlM (h : s.foldlM (fsm s) ⟨[], [], .blank⟩ = .ok m) : Ends s m.cstate := by
  have hrun : ∀ (l t : Text) (m₀ : Fsm), Ends t m₀.cstate → l.foldlM (fsm s) m₀ = .ok m →
      Ends (t ++ l) m.cstate := by
    intro l
    induction l with
    | nil =>
      intro t m₀ ht h
      rw [foldlM_nil_eq_ok] at h
      rw [append_nil, ← h]
      exact ht
    | cons c l ih =>
      intro t m₀ ht h
      obtain ⟨m₁, h₁, h₂⟩ := foldlM_cons_eq_ok.mp h
      have := ih (t ++ [c]) m₁ (ht.step h₁) h₂
      rwa [append_assoc] at this
  exact hrun s [] ⟨[], [], .blank⟩ Pieces.nil h

/-! ### The splitting of a line -/

theorem cmdlineSplit_of_foldlM (h : s.foldlM (fsm s) ⟨[], [], .blank⟩ = .ok m) :
    cmdlineSplit s = match m.cstate with
      | .normal => .ok (m.curArg :: m.argv).reverse
      | .blank => if m.argv = [] then .error .emptyCommandLine else .ok m.argv.reverse
      | .quote | .qEscape => .error (.unclosedQuote s)
      | .dQuote | .dQEscape => .error (.unclosedDQuote s)
      | .escape => .error .assertFailure := by
  have hsplit : cmdlineSplit s = fsm s m ' ' >>= finish s := by
    rw [cmdlineSplit, h]
    rfl
  obtain ⟨argv, cur, st⟩ := m
  rw [hsplit]
  cases st with
  | normal => simp [fsm, normal, isBlank, finish, bind, Except.bind]
  | blank => rfl
  | _ => rfl

theorem cmdlineSplit_inEscape (h : InEscape s) : cmdlineSplit s = .error .assertFailure := by
  obtain ⟨m, hm, hst⟩ := h.foldlM
  rw [cmdlineSplit_of_foldlM hm, hst]

theorem cmdlineSplit_inQuote (h : InQuote '\'' s) : cmdlineSplit s = .error (.unclosedQuote s) := by
  obtain ⟨m, hm, hst⟩ := h.foldlM (between_quote s)
  rw [cmdlineSplit_of_foldlM hm]
  rcases hst with hst | hst <;> rw [hst]

theorem cmdlineSplit_inDQuote (h : InQuote '"' s) : cmdlineSplit s = .error (.unclosedDQuote s) := by
  obtain ⟨m, hm, hst⟩ := h.foldlM (between_dQuote s)
  rw [cmdlineSplit_of_foldlM hm]
  rcases hst with hst | hst <;> rw [hst]

theorem cmdlineSplit_cases (s : Text) :
    (∃ args, args ≠ [] ∧ cmdlineSplit s = .ok args) ∨
      cmdlineSplit s = .error .emptyCommandLine ∨ (∃ c, cmdlineSplit s = .error (.badEscape s c)) ∨
      (cmdlineSplit s = .error (.unclosedQuote s) ∧ InQuote '\'' s) ∨
      (cmdlineSplit s = .error (.unclosedDQuote s) ∧ InQuote '"' s) ∨ InEscape s := by
  cases hfold : s.foldlM (fsm s) ⟨[], [], .blank⟩ with
  | error x =>
    obtain ⟨c, rfl⟩ := foldlM_error hfold
    refine .inr (.inr (.inl ⟨c, ?_⟩))
    rw [cmdlineSplit, hfold]
    rfl
  | ok m =>
    have hends := ends_of_foldlM hfold
    have hsplit := cmdlineSplit_of_foldlM hfold
    cases hst : m.cstate with
    | normal =>
      rw [hst] at hsplit
      exact .inl ⟨_, by simp, hsplit⟩
    | blank =>
      rw [hst] at hsplit
      by_cases hargv : m.argv = []
      · exact .inr (.inl (hsplit.trans (if_pos hargv)))
      · exact .inl ⟨m.argv.reverse, by simpa using hargv, hsplit.trans (if_neg hargv)⟩
    | quote =>
      rw [hst] at hsplit hends
      exact .inr (.inr (.inr (.inl ⟨hsplit, .inl hends⟩)))
    | qEscape =>
      rw [hst] at hsplit hends
      exact .inr (.inr (.inr (.inl ⟨hsplit, .inr hends⟩)))
    | dQuote =>
      rw [hst] at hsplit hends
      exact .inr (.inr (.inr (.inr (.inl ⟨hsplit, .inl hends⟩))))
    | dQEscape =>
      rw [hst] at hsplit hends
      exact .inr (.inr (.inr (.inr (.inl ⟨hsplit, .inr hends⟩))))
    | escape =>
      rw [hst] at hends
      exact .inr (.inr (.inr (.inr (.inr hends))))

/-- Arguments between quotes are read back, and a line is split or rejected as it should be
exactly when it does not end with a backslash outside quotes. -/
theorem cmdlineSplit_exact_iff (s : Text) :
    (∀ args line, Written args line → cmdlineSplit line = .ok args) ∧
      (SplitsLine s ↔ ¬ InEscape s) := by
  refine ⟨fun args line => cmdlineSplit_written, fun h hesc => ?_, fun hesc => ?_⟩
  · have hsplit := h.unfinishedEscape.mpr hesc
    rw [cmdlineSplit_inEscape hesc] at hsplit
    cases hsplit
  have hquote := cmdlineSplit_inQuote (s := s)
  have hdquote := cmdlineSplit_inDQuote (s := s)
  rcases cmdlineSplit_cases s with ⟨args, hne, h⟩ | h | ⟨c, h⟩ | ⟨h, hin⟩ | ⟨h, hin⟩ | h
  all_goals first | exact absurd h hesc | rw [h] at hquote hdquote
  · exact ⟨.inl ⟨args, hne, h⟩, by simp [h, hesc], by simpa [h] using hquote,
      by simpa [h] using hdquote⟩
  · exact ⟨.inr (.inl h), by simp [h, hesc], by simpa [h] using hquote, by simpa [h] using hdquote⟩
  · exact ⟨.inr (.inr (.inl ⟨c, h⟩)), by simp [h, hesc], by simpa [h] using hquote,
      by simpa [h] using hdquote⟩
  · exact ⟨.inr (.inr (.inr ⟨_, by simp, h⟩)), by simp [h, hesc], by simp [h, hin],
      by simpa [h] using hdquote⟩
  · exact ⟨.inr (.inr (.inr ⟨_, by simp, h⟩)), by simp [h, hesc], by simpa [h] using hquote,
      by simp [h, hin]⟩

/-- A backslash at the end of the line escapes the blank that is read for the end. -/
theorem cmdlineSplit_backslash :
    cmdlineSplit ['a', '\\'] = .error .assertFailure ∧ InEscape ['a', '\\'] :=
  ⟨rfl, ['a'], Pieces.nil.char (by decide), rfl⟩

end Why3.Cmdline
