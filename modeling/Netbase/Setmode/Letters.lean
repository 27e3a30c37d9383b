import Netbase.Setmode.Mode

/-!
# Permission letters

The letters behind an operator collect permissions, and `t` also changes who is
meant.  Where nobody was named this takes the other letters of its clause away:
they are no longer cut by the umask but by the sticky bit alone.
-/

namespace Netbase.Setmode

open Netbase.Text

theorem or_none (mode : Mode) : mode ||| 0 = mode := BitVec.or_zero

theorem none_or (mode : Mode) : 0 ||| mode = mode := BitVec.zero_or

theorem and_none (mode : Mode) : mode &&& 0 = 0 := BitVec.and_zero

/-- The letters that name somebody. -/
def whoLetters : List Byte := ascii ['u', 'g', 'o', 'a']

/-- The permission letters without `X` and the copies. -/
def permLetters : List Byte := ascii ['r', 'w', 'x', 's', 't']

/-- What a letter adds to `perm`, where set-id and sticky bits are meant or not. -/
def letterBits (special : Bool) (c : Byte) : Mode :=
  if c = byte 'r' then S_IRALL
  else if c = byte 's' then if special then S_ISUID ||| S_ISGID else 0
  else if c = byte 't' then if special then S_ISTXT else 0
  else if c = byte 'w' then S_IWALL
  else S_IXALL

def permBits (special : Bool) : List Byte → Mode
  | [] => 0
  | c :: p => letterBits special c ||| permBits special p

theorem permBits_append (special : Bool) (p q : List Byte) :
    permBits special (p ++ q) = permBits special p ||| permBits special q := by
  induction p with
  | nil => simp [permBits]
  | cons c p ih => rw [List.cons_append, permBits, permBits, ih, BitVec.or_assoc]

/-- The sticky bit, where the letters ask for it. -/
def stickyBits (special : Bool) (p : List Byte) : Mode :=
  if special = true ∧ byte 't' ∈ p then S_ISTXT else 0

theorem stickyBits_append (special : Bool) (p q : List Byte) :
    stickyBits special (p ++ q) = stickyBits special p ||| stickyBits special q := by
  simp only [stickyBits, List.mem_append]
  by_cases allowed : special = true
  · by_cases first : byte 't' ∈ p
    · have both : (special = true ∧ (byte 't' ∈ p ∨ byte 't' ∈ q)) := ⟨allowed, Or.inl first⟩
      rw [if_pos both, if_pos ⟨allowed, first⟩]
      split
      · exact BitVec.or_self.symm
      · exact (or_none _).symm
    · simp [first]
  · simp [allowed]

/-! ## Reading the letters -/

/-- The character of an operator. -/
def ModeOp.sign : ModeOp → Byte
  | .plus => byte '+'
  | .minus => byte '-'
  | .equal => byte '='

theorem parseOp_sign (op : ModeOp) : parseOp op.sign = some op := by
  cases op with
  | plus => rfl
  | minus => rfl
  | equal => rfl

theorem parseWho_letters (op : ModeOp) (w rest : List Byte) (who : Mode)
    (named : ∀ c ∈ w, c ∈ whoLetters) :
    parseWho who (w ++ op.sign :: rest) = ((parseWho who w).1, op.sign :: rest) := by
  induction w generalizing who with
  | nil =>
      cases op with
      | plus => rfl
      | minus => rfl
      | equal => rfl
  | cons c w ih =>
      have next (who : Mode) := ih who fun d later => named d (List.mem_cons_of_mem _ later)
      have letter := named c List.mem_cons_self
      simp only [whoLetters, ascii, List.map_cons, List.map_nil, List.mem_cons,
        List.not_mem_nil, or_false] at letter
      rcases letter with rfl | rfl | rfl | rfl
      · exact next _
      · exact next _
      · exact next _
      · exact next _

def Perms.letter (state : Perms) (c : Byte) : Perms :=
  let special := specialAllowed state.who
  { state with
    who := state.who ||| stickyBits special [c]
    perm := state.perm ||| letterBits special c }

/-- The state behind some letters. -/
def Perms.read (state : Perms) (p : List Byte) : Perms :=
  let special := specialAllowed state.who
  { state with
    who := state.who ||| stickyBits special p
    perm := state.perm ||| permBits special p }

theorem parsePerms_letter (op : ModeOp) (mask : Mode) (state : Perms) {c : Byte}
    (letter : c ∈ permLetters) (rest : List Byte) :
    parsePerms op mask state (c :: rest) = parsePerms op mask (state.letter c) rest := by
  simp only [permLetters, ascii, List.map_cons, List.map_nil, List.mem_cons,
    List.not_mem_nil, or_false] at letter
  have plain (c : Byte) (other : byte 't' ≠ c) :
      state.letter c =
        { state with perm := state.perm ||| letterBits (specialAllowed state.who) c } := by
    have none_ : stickyBits (specialAllowed state.who) [c] = 0 :=
      if_neg fun both => other (List.mem_singleton.mp both.2)
    rw [Perms.letter, none_, or_none]
  rcases letter with rfl | rfl | rfl | rfl | rfl
  · rw [plain _ (by decide)]
    rfl
  · rw [plain _ (by decide)]
    rfl
  · rw [plain _ (by decide)]
    rfl
  · rw [plain _ (by decide)]
    have bits : letterBits (specialAllowed state.who) (byte 's') =
        if specialAllowed state.who then S_ISUID ||| S_ISGID else 0 := rfl
    have stepped : parsePerms op mask state (byte 's' :: rest) = parsePerms op mask
        { state with
          perm := if specialAllowed state.who then state.perm ||| (S_ISUID ||| S_ISGID)
            else state.perm } rest := rfl
    rw [stepped, bits]
    split
    · rfl
    · rw [or_none]
  · have stepped : parsePerms op mask state (byte 't' :: rest) = parsePerms op mask
        (if specialAllowed state.who then
          { state with who := state.who ||| S_ISTXT, perm := state.perm ||| S_ISTXT }
        else state) rest := rfl
    have bits : letterBits (specialAllowed state.who) (byte 't') =
        if specialAllowed state.who then S_ISTXT else 0 := rfl
    rw [stepped, Perms.letter, bits, stickyBits]
    split
    · next allowed =>
        rw [if_pos ⟨allowed, List.mem_singleton_self _⟩]
    · next denied =>
        rw [if_neg fun both => denied both.1, or_none, or_none]

theorem specialAllowed_sticky (who : Mode) : specialAllowed (who ||| S_ISTXT) = true := by
  have kept : ((who ||| S_ISTXT) &&& ~~~S_IRWXO).getLsbD 9 = true := by
    simp [S_ISTXT, S_IRWXO]
  have nonzero : (who ||| S_ISTXT) &&& ~~~S_IRWXO ≠ 0 := by
    intro zero
    rw [zero] at kept
    simp at kept
  rw [specialAllowed, Bool.or_eq_true]
  exact Or.inr (bne_iff_ne.mpr nonzero)

theorem specialAllowed_letter (state : Perms) (c : Byte) :
    specialAllowed (state.letter c).who = specialAllowed state.who := by
  rw [Perms.letter, stickyBits]
  dsimp only
  split
  · next sticky => rw [specialAllowed_sticky, sticky.1]
  · rw [or_none]

theorem Perms.read_cons (state : Perms) (c : Byte) (p : List Byte) :
    (state.letter c).read p = state.read (c :: p) := by
  rw [Perms.read, specialAllowed_letter, Perms.read]
  have who := stickyBits_append (specialAllowed state.who) [c] p
  rw [List.singleton_append] at who
  rw [who, permBits]
  simp only [Perms.letter, BitVec.or_assoc]

theorem parsePerms_letters (op : ModeOp) (mask : Mode) (p rest : List Byte) (state : Perms)
    (letters : ∀ c ∈ p, c ∈ permLetters) :
    parsePerms op mask state (p ++ rest) = parsePerms op mask (state.read p) rest := by
  induction p generalizing state with
  | nil =>
      have same : state.read [] = state := by simp [Perms.read, stickyBits, permBits]
      rw [same, List.nil_append]
  | cons c p ih =>
      rw [List.cons_append, parsePerms_letter op mask state (letters c List.mem_cons_self),
        ih _ fun d later => letters d (List.mem_cons_of_mem _ later), Perms.read_cons]

/-! ## Clauses -/

/-- What a clause of permission letters does to a mode. -/
def change (op : ModeOp) (bits mode : Mode) : Mode :=
  if op = .minus then mode &&& ~~~bits else mode ||| bits

/-- The bits of a clause for `who`, which is empty where nobody was named. -/
def clauseBits (mask who : Mode) (p : List Byte) : Mode :=
  let special := specialAllowed who
  let meant := who ||| stickyBits special p
  (if meant ≠ 0 then meant else mask) &&& permBits special p

/-- Who is meant by a string of names. -/
def whoBits (w : List Byte) : Mode := (parseWho 0 w).1 &&& ~~~S_ISTXT

/-- The state before the letters of a clause. -/
def clauseStart (who : Mode) (equalopdone : Bool) (commands : List BitCmd) : Perms :=
  { who := who, perm := 0, permXbits := 0, equalopdone := equalopdone, commands := commands }

variable {p : List Byte}

theorem close_run {op : ModeOp} (mask : Mode) {who : Mode} (signed : op ≠ .equal)
    (commands : List BitCmd) (equalopdone : Bool) (omode mode : Mode) :
    (((clauseStart who equalopdone commands).read p).close op mask).commands.foldl
        (step omode) mode =
      change op (clauseBits mask who p) (commands.foldl (step omode) mode) := by
  rw [Perms.close, Perms.read, clauseStart]
  dsimp only
  rw [if_neg (not_not.mpr rfl), List.append_nil, List.foldl_append, none_or]
  have added : (permBits (specialAllowed who) p ≠ 0 ∨ op = .equal ∧ equalopdone = false) ↔
      permBits (specialAllowed who) p ≠ 0 := or_iff_left fun both => signed both.1
  rw [if_congr added rfl rfl]
  unfold clauseBits change
  dsimp only
  split
  · cases op with
    | plus => rfl
    | minus => rfl
    | equal => exact absurd rfl signed
  · next none_ =>
      rw [not_not.mp none_]
      cases op with
      | plus => simp
      | minus =>
          rw [if_pos rfl, and_none, and_not_zero]
          rfl
      | equal => exact absurd rfl signed

theorem parseClauses_last (op : ModeOp) (mask : Mode) (fuel : Nat) (who : Mode) (equalopdone : Bool)
    (commands : List BitCmd) (letters : ∀ c ∈ p, c ∈ permLetters) :
    parseClauses mask (fuel + 1) who equalopdone commands (op.sign :: p) =
      some (((clauseStart (who &&& ~~~S_ISTXT) (if op = .equal then false else equalopdone)
        commands).read p).close op mask).commands := by
  have perms := parsePerms_letters op mask p []
    (clauseStart (who &&& ~~~S_ISTXT) (if op = .equal then false else equalopdone) commands)
    letters
  rw [List.append_nil] at perms
  unfold clauseStart at perms ⊢
  rw [parseClauses, parseOp_sign]
  dsimp only
  rw [perms]
  rfl

theorem parseClauses_more (op : ModeOp) (mask : Mode) (fuel : Nat) (who : Mode) (equalopdone : Bool)
    (commands : List BitCmd) (letters : ∀ c ∈ p, c ∈ permLetters) (rest : List Byte) :
    ∃ done, parseClauses mask (fuel + 1) who equalopdone commands
        (op.sign :: (p ++ byte ',' :: rest)) =
      parseClauses mask fuel (parseWho 0 rest).1 done
        (((clauseStart (who &&& ~~~S_ISTXT) (if op = .equal then false else equalopdone)
          commands).read p).close op mask).commands (parseWho 0 rest).2 := by
  have perms := parsePerms_letters op mask p (byte ',' :: rest)
    (clauseStart (who &&& ~~~S_ISTXT) (if op = .equal then false else equalopdone) commands)
    letters
  unfold clauseStart at perms ⊢
  rw [parseClauses, parseOp_sign]
  dsimp only
  rw [perms]
  exact ⟨_, rfl⟩

/-! ## One clause or two -/

/-- One clause for both strings of letters. -/
def oneClause (w : List Byte) (op : ModeOp) (p q : List Byte) : List Byte :=
  w ++ op.sign :: (p ++ q)

/-- A clause for each string of letters. -/
def twoClauses (w : List Byte) (op : ModeOp) (p q : List Byte) : List Byte :=
  w ++ op.sign :: (p ++ byte ',' :: (w ++ op.sign :: q))

theorem oneClause_mode {op : ModeOp} (signed : op ≠ .equal) (mask : Mode) {w q : List Byte}
    (named : ∀ c ∈ w, c ∈ whoLetters) (pLetters : ∀ c ∈ p, c ∈ permLetters)
    (qLetters : ∀ c ∈ q, c ∈ permLetters) (omode : Mode) :
    (setmode mask (oneClause w op p q)).map (getmode · omode) =
      some (change op (clauseBits mask (whoBits w) (p ++ q)) omode) := by
  have letters : ∀ c ∈ p ++ q, c ∈ permLetters := fun c inside =>
    (List.mem_append.mp inside).elim (pLetters c) (qLetters c)
  have parsed := parseClauses_last op mask (oneClause w op p q).length
    (parseWho 0 w).1 false [] letters
  have read := parseWho_letters op w (p ++ q) 0 named
  rw [setmode, symbolicCommands]
  unfold oneClause at parsed ⊢
  rw [read]
  dsimp only
  rw [parsed, Option.map_some, Option.map_some, getmode_compressMode, getmode,
    close_run mask signed, ← whoBits, List.foldl_nil]

theorem twoClauses_mode {op : ModeOp} (signed : op ≠ .equal) (mask : Mode) {w q : List Byte}
    (named : ∀ c ∈ w, c ∈ whoLetters) (pLetters : ∀ c ∈ p, c ∈ permLetters)
    (qLetters : ∀ c ∈ q, c ∈ permLetters) (omode : Mode) :
    (setmode mask (twoClauses w op p q)).map (getmode · omode) =
      some (change op (clauseBits mask (whoBits w) q)
        (change op (clauseBits mask (whoBits w) p) omode)) := by
  obtain ⟨fuel, enough⟩ : ∃ fuel, (twoClauses w op p q).length = fuel + 1 :=
    Nat.exists_eq_succ_of_ne_zero (by simp [twoClauses])
  obtain ⟨done, first⟩ := parseClauses_more op mask (fuel + 1)
    (parseWho 0 w).1 false [] pLetters (w ++ op.sign :: q)
  have read := parseWho_letters op w (p ++ byte ',' :: (w ++ op.sign :: q)) 0 named
  rw [parseWho_letters op w q 0 named] at first
  dsimp only at first
  rw [parseClauses_last op mask fuel _ done _ qLetters] at first
  rw [setmode, symbolicCommands, enough]
  unfold twoClauses
  rw [read]
  dsimp only
  rw [first, Option.map_some, Option.map_some, getmode_compressMode, getmode,
    close_run mask signed, close_run mask signed, ← whoBits, List.foldl_nil]

/-! ## Letters next to each other -/

theorem change_change (op : ModeOp) (first second mode : Mode) :
    change op second (change op first mode) = change op (first ||| second) mode := by
  unfold change
  split
  · ext i inside
    simp [Bool.and_assoc]
  · rw [BitVec.or_assoc]

theorem whoBits_nonzero {w : List Byte} (named : ∀ c ∈ w, c ∈ whoLetters) (some_ : w ≠ []) :
    whoBits w ≠ 0 := by
  have grows (w : List Byte) (who : Mode) (i : Nat) (set : who.getLsbD i = true) :
      (parseWho who w).1.getLsbD i = true := by
    induction w generalizing who with
    | nil => exact set
    | cons c w ih =>
        rw [parseWho]
        split
        · exact ih _ (by simp [set])
        · split
          · exact ih _ (by simp [set])
          · split
            · exact ih _ (by simp [set])
            · split
              · exact ih _ (by simp [set])
              · exact set
  cases w with
  | nil => exact absurd rfl some_
  | cons c w =>
      have letter := named c List.mem_cons_self
      simp only [whoLetters, ascii, List.map_cons, List.map_nil, List.mem_cons,
        List.not_mem_nil, or_false] at letter
      have outside (i : Nat) (kept : (~~~S_ISTXT).getLsbD i = true)
          (set : (parseWho 0 (c :: w)).1.getLsbD i = true) : whoBits (c :: w) ≠ 0 := by
        intro zero
        have held : (whoBits (c :: w)).getLsbD i = true := by
          rw [whoBits, BitVec.getLsbD_and, set, kept]
          rfl
        rw [zero] at held
        simp at held
      rcases letter with rfl | rfl | rfl | rfl
      · exact outside 8 (by decide) (grows w _ 8 (by decide))
      · exact outside 5 (by decide) (grows w _ 5 (by decide))
      · exact outside 2 (by decide) (grows w _ 2 (by decide))
      · exact outside 2 (by decide) (grows w _ 2 (by decide))

theorem sticky_letterBits (special : Bool) {c : Byte} (letter : c ∈ permLetters) :
    S_ISTXT &&& letterBits special c = stickyBits special [c] := by
  simp only [permLetters, ascii, List.map_cons, List.map_nil, List.mem_cons,
    List.not_mem_nil, or_false] at letter
  cases special with
  | false => rcases letter with rfl | rfl | rfl | rfl | rfl <;> decide
  | true => rcases letter with rfl | rfl | rfl | rfl | rfl <;> decide

/-- Only `t` asks for the sticky bit. -/
theorem sticky_permBits (special : Bool) (letters : ∀ c ∈ p, c ∈ permLetters) :
    S_ISTXT &&& permBits special p = stickyBits special p := by
  induction p with
  | nil => rw [permBits, and_none, stickyBits, if_neg fun both => by cases both.2]
  | cons c p ih =>
      have rest := ih fun d later => letters d (List.mem_cons_of_mem _ later)
      have whole := stickyBits_append special [c] p
      rw [List.singleton_append] at whole
      rw [permBits, whole, ← rest, ← sticky_letterBits special (letters c List.mem_cons_self)]
      ext i inside
      simp [Bool.and_or_distrib_left]

theorem clauseBits_named (mask : Mode) {who : Mode} (named : who ≠ 0)
    (letters : ∀ c ∈ p, c ∈ permLetters) :
    clauseBits mask who p = (who &&& permBits (specialAllowed who) p) |||
      stickyBits (specialAllowed who) p := by
  have meant : who ||| stickyBits (specialAllowed who) p ≠ 0 := by
    intro zero
    exact named (BitVec.or_eq_zero_iff.mp zero).1
  have sticky := sticky_permBits (specialAllowed who) letters
  rw [clauseBits, if_pos meant, ← sticky]
  ext i inside
  simp only [BitVec.getElem_or, BitVec.getElem_and]
  cases who[i] <;> cases (permBits (specialAllowed who) p)[i] <;> simp

/-- What the letters without a `t` say for nobody in particular. -/
def plainBits (mask : Mode) (p : List Byte) : Mode :=
  if byte 't' ∈ p then 0 else mask &&& permBits true p

theorem plainBits_sticky (mask : Mode) (letters : ∀ c ∈ p, c ∈ permLetters) :
    S_ISTXT &&& plainBits mask p = 0 := by
  unfold plainBits
  split
  · rfl
  · next plain =>
      have sticky := sticky_permBits true letters
      rw [stickyBits, if_neg fun both => plain both.2] at sticky
      rw [BitVec.and_comm mask, ← BitVec.and_assoc, sticky]
      exact BitVec.zero_and

/-- The bits of a clause for nobody: with a `t` in it they are the sticky bit alone. -/
theorem clauseBits_nobody (mask : Mode) (letters : ∀ c ∈ p, c ∈ permLetters) :
    clauseBits mask 0 p = if byte 't' ∈ p then S_ISTXT else mask &&& permBits true p := by
  have special : specialAllowed 0 = true := rfl
  have sticky := sticky_permBits true letters
  rw [clauseBits, special, none_or]
  by_cases asked : byte 't' ∈ p
  · have stuck : stickyBits true p = S_ISTXT := if_pos ⟨rfl, asked⟩
    rw [stuck] at sticky ⊢
    rw [if_pos asked, if_pos (by decide), sticky]
  · have loose : stickyBits true p = 0 := if_neg fun both => asked both.2
    rw [loose, if_neg asked, if_neg (not_not.mpr rfl)]

theorem change_sticky {op : ModeOp} {bits : Mode} (apart : S_ISTXT &&& bits = 0) (mode : Mode) :
    change op S_ISTXT mode = change op (S_ISTXT ||| bits) mode ↔ change op bits mode = mode := by
  have bitwise (one other : Mode) : one = other ↔ ∀ i : Fin 32, one[i] = other[i] := by
    constructor
    · rintro rfl i
      rfl
    · intro same
      ext i inside
      exact same ⟨i, inside⟩
  rw [bitwise] at apart
  rw [bitwise, bitwise]
  refine forall_congr' fun i => ?_
  have disjoint := apart i
  unfold change
  split
  · simp only [Fin.getElem_fin, BitVec.getElem_and, BitVec.getElem_not, BitVec.getElem_or] at *
    revert disjoint
    cases mode[i.val] <;> cases S_ISTXT[i.val] <;> cases bits[i.val] <;> simp
  · simp only [Fin.getElem_fin, BitVec.getElem_and, BitVec.getElem_or] at *
    revert disjoint
    cases mode[i.val] <;> cases S_ISTXT[i.val] <;> cases bits[i.val] <;> simp

/--
The permission letters behind `+` or `-` may be spread over two clauses exactly when
somebody is named, no letter is `t`, or the letters without a `t` in their own clause
change nothing.
-/
theorem independent_iff {op : ModeOp} (signed : op ≠ .equal) (mask : Mode) {w p q : List Byte}
    (named : ∀ c ∈ w, c ∈ whoLetters) (pLetters : ∀ c ∈ p, c ∈ permLetters)
    (qLetters : ∀ c ∈ q, c ∈ permLetters) (omode : Mode) :
    (setmode mask (oneClause w op p q)).map (getmode · omode) =
        (setmode mask (twoClauses w op p q)).map (getmode · omode) ↔
      (w = [] → byte 't' ∈ p ++ q →
        change op (plainBits mask p ||| plainBits mask q) omode = omode) := by
  have letters : ∀ c ∈ p ++ q, c ∈ permLetters := fun c inside =>
    (List.mem_append.mp inside).elim (pLetters c) (qLetters c)
  rw [oneClause_mode signed mask named pLetters qLetters,
    twoClauses_mode signed mask named pLetters qLetters, change_change, Option.some.injEq]
  by_cases nobody : w = []
  · subst nobody
    have empty : whoBits [] = 0 := rfl
    rw [empty, clauseBits_nobody mask letters, clauseBits_nobody mask pLetters,
      clauseBits_nobody mask qLetters]
    by_cases asked : byte 't' ∈ p ++ q
    · have split : (if byte 't' ∈ p then S_ISTXT else mask &&& permBits true p) |||
          (if byte 't' ∈ q then S_ISTXT else mask &&& permBits true q) =
          S_ISTXT ||| (plainBits mask p ||| plainBits mask q) := by
        unfold plainBits
        by_cases first : byte 't' ∈ p
        · rw [if_pos first, if_pos first, none_or]
          split
          · rw [or_none, BitVec.or_self]
          · rfl
        · have second := (List.mem_append.mp asked).resolve_left first
          rw [if_neg first, if_pos second, if_neg first, if_pos second, or_none, BitVec.or_comm]
      have apart : S_ISTXT &&& (plainBits mask p ||| plainBits mask q) = 0 := by
        rw [BitVec.and_or_distrib_left, plainBits_sticky mask pLetters,
          plainBits_sticky mask qLetters, none_or]
      rw [if_pos asked, split, change_sticky apart]
      exact ⟨fun same _ _ => same, fun same => same rfl asked⟩
    · have plain := not_or.mp (mt List.mem_append.mpr asked)
      rw [if_neg asked, if_neg plain.1, if_neg plain.2, permBits_append]
      refine ⟨fun _ _ said => absurd said asked, fun _ => ?_⟩
      rw [BitVec.and_or_distrib_left]
  · refine ⟨fun _ empty => absurd empty nobody, fun _ => ?_⟩
    have somebody := whoBits_nonzero named nobody
    rw [clauseBits_named mask somebody letters, clauseBits_named mask somebody pLetters,
      clauseBits_named mask somebody qLetters, permBits_append, stickyBits_append]
    congr 1
    rw [BitVec.and_or_distrib_left]
    ac_rfl

/-- `u+rt` is `u+r,u+t`. -/
theorem independent_named :
    (setmode 0o755 (oneClause (ascii ['u']) .plus (ascii ['r']) (ascii ['t']))).map
        (getmode · 0o222) =
      (setmode 0o755 (twoClauses (ascii ['u']) .plus (ascii ['r']) (ascii ['t']))).map
        (getmode · 0o222) :=
  (independent_iff (by decide) 0o755 (by decide +kernel) (by decide +kernel) (by decide +kernel)
    0o222).mpr
    fun empty => absurd empty (by decide)

/-- `+rt` forgets the `r` of `+r,+t`. -/
theorem plain_r_lost :
    (setmode 0o755 (oneClause [] .plus (ascii ['r']) (ascii ['t']))).map (getmode · 0) ≠
      (setmode 0o755 (twoClauses [] .plus (ascii ['r']) (ascii ['t']))).map (getmode · 0) := by
  decide

end Netbase.Setmode
