import Buenos.Userland.Strings
import Mathlib.Data.List.Find
import Mathlib.Data.List.Forall2

/-! Command lines of `tests/osh.c`: `tokenize` cuts the line in place into words, `run_command`
compares the first with the names of the commands. -/
namespace Buenos.Userland.Shell

open Buenos.Foundation Buenos.Userland.Strings

/-! ### The code -/

def bufferSize : Nat := 100

/-- The variables of `tokenize`; `argc` is the length of `argv`, and pointers are offsets from `cmdline`. -/
structure Tokens where
  cmdline : Chars
  argv : List Nat
  inword : Bool
  p : Nat

/-- The loop of `tokenize` from offset `s` on; `room` bounds the turns. -/
def tokenizeFrom : Nat → Nat → Tokens → Option Tokens
  | 0, _, _ => none
  | room + 1, s, t =>
    if t.cmdline s = 0 then some t
    else if t.cmdline s = 32 ∧ t.inword then
      tokenizeFrom room (s + 1) ⟨Function.update t.cmdline s 0,t.argv ++ [t.p],false,t.p⟩
    else if t.cmdline s ≠ 32 ∧ ¬t.inword then tokenizeFrom room (s + 1) { t with inword := true, p := s }
    else tokenizeFrom room (s + 1) t

/-- The pointers to the words, and the line as it has been cut. -/
def tokenize (room : Nat) (cmdline : Chars) : Option (List Nat × Chars) :=
  (tokenizeFrom room 0 ⟨cmdline,[],false,0⟩).map fun t => (if t.inword then t.argv ++ [t.p] else t.argv, t.cmdline)

/-- The functions of the table of commands. -/
inductive Command where
  | echo
  | show
  | read
  | help
  | exit
  | rm
  | cp
  | cmp
  | ls
  deriving DecidableEq

def commands : List (List UInt8 × Command) :=
  [([101,99,104,111],.echo),([115,104,111,119],.show),([114,101,97,100],.read),([104,101,108,112],.help),
    ([101,120,105,116],.exit),([114,109],.rm),([99,112],.cp),([99,109,112],.cmp),([108,115],.ls)]

/-- What a line leads to: the call of a command with its arguments, or a program's with the path. -/
inductive Ran where
  | nothing
  | command (func : Command) (argv : List Nat)
  | program (path : Nat)
  deriving DecidableEq

def runCommand (room : Nat) (cmdline : Chars) : Option (Ran × Chars) :=
  (tokenize room cmdline).map fun (argv, line) =>
    match argv with
    | [] => (.nothing, line)
    | first :: _ =>
      match commands.find? fun c => strcmp (fun i => line (first + i)) (literal c.1) == 0 with
      | some c => (.command c.2 argv, line)
      | none => (.program 0, line)

/-! ### Words -/

/-- The words of a line: what is between spaces, but for the empty pieces. -/
def words (l : List UInt8) : List (List UInt8) := (l.splitOn 32).filter fun w => w ≠ []

def IsWord (w : List UInt8) : Prop := w ≠ [] ∧ 32 ∉ w

theorem words_nil : words [] = [] := rfl

theorem words_space (l : List UInt8) : words (32 :: l) = words l := by
  unfold words
  rw [List.splitOn_cons_eq_if_modifyHead]
  simp

theorem words_word (word : IsWord w) : words w = [w] := by
  unfold words
  rw [List.splitOn_eq_singleton word.2]
  simp [word.1]

theorem words_first (word : IsWord w) (l : List UInt8) : words (w ++ 32 :: l) = w :: words l := by
  unfold words
  rw [List.splitOn_append_cons_of_beq w l (beq_self_eq_true 32),List.splitOn_eq_singleton word.2]
  simp [word.1]

/-- The room that pieces take with a separator behind each. -/
def extent : List (List UInt8) → Nat
  | [] => 0
  | w :: more => w.length + 1 + extent more

theorem splitOn_extent (a : UInt8) (l : List UInt8) : extent (l.splitOn a) = l.length + 1 := by
  induction l with
  | nil => rfl
  | cons c rest ih =>
    rw [List.splitOn_cons_eq_if_modifyHead]
    split
    · rw [extent,ih,List.length_nil,List.length_cons]
      omega
    · obtain ⟨w,more,pieces⟩ := List.exists_cons_of_ne_nil (List.splitOn_ne_nil a rest)
      rw [pieces,extent] at ih
      rw [pieces,List.modifyHead_cons,extent,List.length_cons,List.length_cons]
      omega

/-- A word takes two characters with the space behind it. -/
theorem words_few (l : List UInt8) : 2 * (words l).length ≤ l.length + 1 := by
  rw [← splitOn_extent 32 l]
  unfold words
  induction l.splitOn 32 with
  | nil => exact Nat.le_refl 0
  | cons w more ih =>
    rw [extent,List.filter_cons]
    split
    · next nonempty =>
      have one : 0 < w.length := List.length_pos_iff.mpr (by simpa using nonempty)
      rw [List.length_cons]
      omega
    · omega

theorem extent_member (member : w ∈ pieces) : w.length < extent pieces := by
  induction pieces with
  | nil => contradiction
  | cons v more ih =>
    rw [extent]
    obtain rfl | later := List.mem_cons.mp member
    · omega
    · have := ih later
      omega

theorem words_short (member : w ∈ words l) : w.length ≤ l.length := by
  have inside := extent_member (List.mem_of_mem_filter member)
  rw [splitOn_extent] at inside
  omega

/-! ### Cutting the line -/

/-- When the loop is at `s`: the words `ws` are cut off, and `w` is the beginning of the next. -/
structure Cut (s : Nat) (t : Tokens) (ws : List (List UInt8)) (w : List UInt8) : Prop where
  behind : List.Forall₂ (fun a v => Holds (fun i => t.cmdline (a + i)) v ∧ a + v.length < s) t.argv ws
  inword : t.inword = true ↔ w ≠ []
  place : w ≠ [] → t.p + w.length = s
  chars : ∀ i (inside : i < w.length), t.cmdline (t.p + i) = w[i]
  spaceless : 32 ∉ w
  clean : 0 ∉ w

def Rest (cmdline : Chars) (s : Nat) (l : List UInt8) : Prop := Holds (fun i => cmdline (s + i)) l

theorem Rest.head (rest : Rest cmdline s (c :: l)) : cmdline s = c :=
  rest.chars 0 (by simp)

theorem Rest.tail (rest : Rest cmdline s (c :: l)) : Rest cmdline (s + 1) l := by
  have later := Holds.tail rest
  unfold Rest
  simpa [Nat.add_assoc,Nat.add_comm 1] using later

theorem Rest.update (rest : Rest cmdline (s + 1) l) (b : UInt8) : Rest (Function.update cmdline s b) (s + 1) l := by
  refine ⟨rest.clean,fun i inside => ?_,?_⟩
  · rw [Function.update_of_ne (by omega)]
    exact rest.chars i inside
  · rw [Function.update_of_ne (by omega)]
    exact rest.ended

section Cut
variable {s : Nat} {t : Tokens} {ws : List (List UInt8)} {w : List UInt8}

theorem Cut.space (cut : Cut s t ws []) : Cut (s + 1) t ws [] :=
  ⟨cut.behind.imp fun _ _ ⟨holds,before⟩ => ⟨holds,by omega⟩,cut.inword,fun no => absurd rfl no,nofun,cut.spaceless,cut.clean⟩

theorem Cut.begin (cut : Cut s t ws []) (here : t.cmdline s = c) (space : c ≠ 32) (nonzero : c ≠ 0) :
    Cut (s + 1) { t with inword := true, p := s } ws [c] := by
  refine ⟨cut.behind.imp fun _ _ ⟨holds,before⟩ => ⟨holds,by omega⟩,by simp,fun _ => by simp,fun i inside => ?_,
    by simp [Ne.symm space],by simp [Ne.symm nonzero]⟩
  have first : i = 0 := by simpa using inside
  subst first
  exact here

theorem Cut.grow (cut : Cut s t ws w) (begun : w ≠ []) (here : t.cmdline s = c) (space : c ≠ 32) (nonzero : c ≠ 0) :
    Cut (s + 1) t ws (w ++ [c]) := by
  have place := cut.place begun
  refine ⟨cut.behind.imp fun _ _ ⟨holds,before⟩ => ⟨holds,by omega⟩,by simp [cut.inword,begun],fun _ => ?_,fun i inside => ?_,?_,?_⟩
  · rw [List.length_append,List.length_singleton]
    omega
  · rw [List.length_append,List.length_singleton] at inside
    by_cases old : i < w.length
    · rw [List.getElem_append_left old]
      exact cut.chars i old
    · have last : i = w.length := by omega
      subst last
      rw [List.getElem_concat_length rfl,place]
      exact here
  · simp [cut.spaceless,Ne.symm space]
  · simp [cut.clean,Ne.symm nonzero]

theorem Cut.ended (cut : Cut s t ws w) (begun : w ≠ []) (line : Chars) (ended : line s = 0)
    (same : ∀ i, i ≠ s → line i = t.cmdline i) :
    List.Forall₂ (fun a v => Holds (fun i => line (a + i)) v ∧ a + v.length < s + 1) (t.argv ++ [t.p]) (ws ++ [w]) := by
  have place := cut.place begun
  refine List.rel_append ?_ ?_
  · refine cut.behind.imp fun a v ⟨holds,before⟩ => ⟨⟨holds.clean,fun i inside => ?_,?_⟩,by omega⟩
    · rw [same _ (by omega)]
      exact holds.chars i inside
    · rw [same _ (by omega)]
      exact holds.ended
  · refine .cons ⟨⟨cut.clean,fun i inside => ?_,?_⟩,by omega⟩ .nil
    · rw [same _ (by omega)]
      exact cut.chars i inside
    · rw [place]
      exact ended

end Cut

theorem tokenizeFrom_words (rest : Rest t.cmdline s l) (cut : Cut s t ws w) (enough : l.length < room) :
    ∃ u ws' w', tokenizeFrom room s t = some u ∧ Cut (s + l.length) u ws' w' ∧ u.cmdline (s + l.length) = 0 ∧
      ws' ++ words w' = ws ++ words (w ++ l) ∧ ∀ i, u.cmdline i ≠ t.cmdline i → t.cmdline i = 32 ∧ u.cmdline i = 0 := by
  induction l generalizing s t ws w room with
  | nil =>
    obtain ⟨room,rfl⟩ := Nat.exists_eq_add_of_lt enough
    refine ⟨t,ws,w,?_,cut,rest.ended,by rw [List.append_nil],fun i changed => absurd rfl changed⟩
    rw [List.length_nil,Nat.zero_add,tokenizeFrom,if_pos (show t.cmdline s = 0 from rest.ended)]
  | cons c l ih =>
    obtain ⟨room,rfl⟩ : ∃ k, room = k + 1 := ⟨room - 1,by omega⟩
    have fewer : l.length < room := by simpa using enough
    have here := rest.head
    have nonzero : c ≠ 0 := fun zero => rest.clean (by simp [zero])
    have shift : s + (c :: l).length = s + 1 + l.length := by rw [List.length_cons]; omega
    rw [tokenizeFrom,here,if_neg nonzero,shift]
    by_cases space : c = 32
    · subst space
      by_cases begun : w = []
      · subst begun
        have outside : ¬t.inword = true := by simp [cut.inword]
        rw [if_neg (by simp [outside]),if_neg (by simp)]
        rw [List.nil_append,words_space]
        exact ih rest.tail cut.space fewer
      · rw [if_pos ⟨rfl,cut.inword.mpr begun⟩]
        have ended := cut.ended begun (Function.update t.cmdline s 0) (Function.update_self _ _ _)
          (fun i other => Function.update_of_ne other _ _)
        have next : Cut (s + 1) ⟨Function.update t.cmdline s 0,t.argv ++ [t.p],false,t.p⟩ (ws ++ [w]) [] :=
          ⟨ended,by simp,fun no => absurd rfl no,nofun,by simp,by simp⟩
        obtain ⟨u,ws',w',loop,final,nul,same,changes⟩ := ih (rest.tail.update 0) next fewer
        refine ⟨u,ws',w',loop,final,nul,?_,fun i changed => ?_⟩
        · rw [same,words_first ⟨begun,cut.spaceless⟩]
          simp
        · by_cases at_ : i = s
          · subst at_
            have before : u.cmdline i = 0 := by
              by_contra other
              have touched : u.cmdline i ≠ Function.update t.cmdline i 0 i := by
                rw [Function.update_self]
                exact other
              exact other (changes i touched).2
            exact ⟨here,before⟩
          · have later := changes i
            dsimp only at later
            rw [Function.update_of_ne at_] at later
            exact later changed
    · rw [if_neg (by simp [space])]
      by_cases begun : w = []
      · subst begun
        have outside : ¬t.inword = true := by simp [cut.inword]
        rw [if_pos ⟨space,outside⟩]
        exact ih (t := { t with inword := true, p := s }) rest.tail (cut.begin here space nonzero) fewer
      · rw [if_neg (by simp [cut.inword.mpr begun])]
        have again := ih rest.tail (cut.grow begun here space nonzero) fewer
        rwa [List.append_assoc,List.singleton_append] at again

def Tokens.found (t : Tokens) : List Nat := if t.inword then t.argv ++ [t.p] else t.argv

theorem tokenize_found (room : Nat) (cmdline : Chars) :
    tokenize room cmdline = (tokenizeFrom room 0 ⟨cmdline,[],false,0⟩).map fun t => (t.found,t.cmdline) := rfl

/-- What the loop has passed stays, and so do the pointers that it has found. -/
theorem tokenizeFrom_keeps (ran : tokenizeFrom room s t = some u) :
    (∀ i < s, u.cmdline i = t.cmdline i) ∧ t.found <+: u.found := by
  induction room generalizing s t with
  | zero => contradiction
  | succ room ih =>
    rw [tokenizeFrom] at ran
    split at ran
    · cases ran
      exact ⟨fun _ _ => rfl,List.prefix_refl _⟩
    · split at ran
      · next word =>
        obtain ⟨kept,found⟩ := ih ran
        refine ⟨fun i before => ?_,?_⟩
        · rw [kept i (by omega)]
          exact Function.update_of_ne (by omega) _ _
        · simpa [Tokens.found,word.2] using found
      · split at ran
        · next word =>
          obtain ⟨kept,found⟩ := ih ran
          refine ⟨fun i before => kept i (by omega),?_⟩
          have one : t.found <+: t.argv ++ [s] := by simp [Tokens.found,word.2]
          exact one.trans (by simpa [Tokens.found] using found)
        · obtain ⟨kept,found⟩ := ih ran
          exact ⟨fun i before => kept i (by omega),found⟩

theorem tokenizeFrom_spaces (outside : t.inword = false) (spaces : ∀ i < k, t.cmdline (s + i) = 32) :
    tokenizeFrom (room + k) s t = tokenizeFrom room (s + k) t := by
  induction k generalizing s with
  | zero => rfl
  | succ k ih =>
    have here := spaces 0 (by omega)
    rw [Nat.add_zero] at here
    rw [← Nat.add_assoc,tokenizeFrom,here,if_neg (by decide),if_neg (by simp [outside]),if_neg (by simp),
      show s + (k + 1) = s + 1 + k by omega]
    refine ih fun i small => ?_
    rw [show s + 1 + i = s + (i + 1) by omega]
    exact spaces (i + 1) (by omega)

/-! ### The commands -/

/-- The words of the line are cut off, and pointers to them are returned, at most one to two
characters; nothing but spaces is overwritten. -/
theorem tokenize_words (holds : Holds cmdline l) (enough : l.length < room) :
    ∃ argv line, tokenize room cmdline = some (argv, line) ∧
      List.Forall₂ (fun a w => Holds (fun i => line (a + i)) w) argv (words l) ∧ 2 * argv.length ≤ l.length + 1 ∧
      ∀ i, line i ≠ cmdline i → cmdline i = 32 ∧ line i = 0 := by
  have start : Cut 0 ⟨cmdline,[],false,0⟩ [] [] := ⟨.nil,by simp,fun no => absurd rfl no,nofun,by simp,by simp⟩
  have rest : Rest cmdline 0 l := by
    unfold Rest
    simpa using holds
  obtain ⟨u,ws,w,loop,cut,nul,same,changes⟩ := tokenizeFrom_words rest start enough
  rw [List.nil_append,List.nil_append] at same
  have found : List.Forall₂ (fun a w => Holds (fun i => u.cmdline (a + i)) w) u.found (words l) := by
    rw [← same]
    by_cases begun : w = []
    · subst begun
      have outside : u.inword = false := by simpa using cut.inword
      rw [words_nil,List.append_nil,Tokens.found,if_neg (by simp [outside])]
      exact cut.behind.imp fun _ _ ⟨holds,_⟩ => holds
    · rw [words_word ⟨begun,cut.spaceless⟩,Tokens.found,if_pos (cut.inword.mpr begun)]
      exact (cut.ended begun u.cmdline nul fun _ _ => rfl).imp fun _ _ ⟨holds,_⟩ => holds
  refine ⟨u.found,u.cmdline,?_,found,?_,changes⟩
  · rw [tokenize_found,loop]
    rfl
  · rw [found.length_eq]
    exact words_few l

theorem leading (l : List UInt8) :
    ∃ k m, l = List.replicate k 32 ++ m ∧ m.head? ≠ some 32 ∧ l.takeWhile (· = 32) = List.replicate k 32 := by
  induction l with
  | nil => exact ⟨0,[],rfl,nofun,rfl⟩
  | cons c rest ih =>
    by_cases space : c = 32
    · obtain ⟨k,m,parts,start,front⟩ := ih
      refine ⟨k + 1,m,?_,start,?_⟩
      · rw [space,List.replicate_succ,List.cons_append,← parts]
      · rw [space,List.takeWhile_cons_of_pos (by decide),front,List.replicate_succ]
    · exact ⟨0,c :: rest,rfl,by simpa using space,by simp [space]⟩

/-- The first pointer leads to the first character that is no space. -/
theorem tokenize_first (holds : Holds cmdline (List.replicate k 32 ++ m)) (start : m.head? ≠ some 32)
    (enough : k + m.length < room) (ran : tokenize room cmdline = some (first :: more, line)) :
    first = k ∧ ∀ i < k, line i = 32 := by
  rw [tokenize_found] at ran
  obtain ⟨u,loop,result⟩ := Option.map_eq_some_iff.mp ran
  injection result with found same
  subst same
  have blank : ∀ i < k, cmdline i = 32 := by
    intro i small
    rw [holds.chars i (by simp; omega),List.getElem_append_left (by simpa using small),List.getElem_replicate]
  have behind : Holds (fun i => cmdline (k + i)) m := by
    have dropped := holds.drop (k := k) (by simp)
    rwa [List.drop_left' (by simp)] at dropped
  obtain ⟨left,rfl⟩ : ∃ left, room = left + 1 + k := ⟨room - 1 - k,by omega⟩
  rw [tokenizeFrom_spaces rfl (by simpa using blank),Nat.zero_add,tokenizeFrom] at loop
  dsimp only at loop
  have here : cmdline k = m.headD 0 := behind.head
  cases m with
  | nil =>
    rw [if_pos (show cmdline k = 0 from here)] at loop
    cases loop
    contradiction
  | cons c rest =>
    have space : c ≠ 32 := by simpa using start
    have nonzero : c ≠ 0 := fun zero => behind.clean (by simp [zero])
    rw [List.headD_cons] at here
    rw [if_neg (by rwa [here]),if_neg (by simp),if_pos ⟨by rwa [here],by simp⟩] at loop
    obtain ⟨kept,prefixed⟩ := tokenizeFrom_keeps loop
    rw [found] at prefixed
    obtain ⟨later,same⟩ := prefixed
    simp only [Tokens.found,if_true,List.nil_append,List.singleton_append,List.cons.injEq] at same
    refine ⟨same.1.symm,fun i small => ?_⟩
    rw [kept i (by omega)]
    exact blank i small

def commandNamed (name : List UInt8) : Option Command := (commands.find? fun c => c.1 = name).map Prod.snd

theorem find_named (holds : Holds s name) (small : name.length < 0x7fffffff) :
    ((commands.find? fun c => strcmp s (literal c.1) == 0).map Prod.snd) = commandNamed name := by
  have clean : ∀ c ∈ commands, 0 ∉ c.1 := by decide
  have same : ∀ c ∈ commands, (strcmp s (literal c.1) == 0) = decide (c.1 = name) := by
    intro c member
    have compared := (strncmpFrom_order holds (literal_holds (clean c member)) small).1
    rw [Bool.eq_iff_iff,beq_iff_eq,decide_eq_true_iff]
    exact compared.trans eq_comm
  unfold commandNamed
  congr 1
  exact List.find?_congr same

/-- A line runs the command that its first word names, with all its words; otherwise the program
whose path is the line up to the end of the first word. -/
theorem runCommand_words (holds : Holds cmdline l) (short : l.length < bufferSize) :
    (words l = [] → ∃ line, runCommand bufferSize cmdline = some (.nothing, line)) ∧
    ∀ name args, words l = name :: args → ∃ argv line,
      runCommand bufferSize cmdline = some (((commandNamed name).map fun f => Ran.command f argv).getD (.program 0), line) ∧
      List.Forall₂ (fun a w => Holds (fun i => line (a + i)) w) argv (words l) ∧ argv.length ≤ bufferSize ∧
      Holds line (l.takeWhile (· = 32) ++ name) := by
  obtain ⟨argv,line,cut,found,few,changes⟩ := tokenize_words holds short
  refine ⟨fun empty => ?_,fun name args cutUp => ?_⟩
  · rw [empty] at found
    cases found
    exact ⟨line,by rw [runCommand,cut]; rfl⟩
  · rw [cutUp] at found ⊢
    obtain ⟨first,more,held,rest,rfl⟩ := List.forall₂_cons_right_iff.mp found
    obtain ⟨k,m,parts,start,front⟩ := leading l
    rw [parts] at holds
    have total : l.length = k + m.length := by rw [parts,List.length_append,List.length_replicate]
    obtain ⟨rfl,blank⟩ := tokenize_first holds start (by omega) cut
    have small : name.length < 0x7fffffff := by
      have := words_short (show name ∈ words l by rw [cutUp]; exact List.mem_cons_self)
      unfold bufferSize at short
      omega
    refine ⟨first :: more,line,?_,.cons held rest,by unfold bufferSize at *; omega,?_⟩
    · rw [runCommand,cut,← find_named held small,Option.map_some]
      cases search : commands.find? fun c => strcmp (fun i => line (first + i)) (literal c.1) == 0 with
      | none =>
        dsimp only
        rw [search]
        rfl
      | some c =>
        dsimp only
        rw [search]
        rfl
    · rw [front]
      refine ⟨?_,fun i inside => ?_,?_⟩
      · simpa using held.clean
      · by_cases before : i < first
        · rw [blank i before,List.getElem_append_left (by simpa using before),List.getElem_replicate]
        · rw [List.getElem_append_right (by simpa using before),← held.chars _ (by simp at inside ⊢; omega)]
          congr 1
          simp
          omega
      · rw [List.length_append,List.length_replicate]
        exact held.ended

/-- ` ls  x` is a call of `ls` with one argument. -/
theorem runCommand_words_list : ∃ argv line,
    runCommand bufferSize (literal [32,108,115,32,32,120]) = some (.command .ls argv, line) ∧
    List.Forall₂ (fun a w => Holds (fun i => line (a + i)) w) argv [[108,115],[120]] := by
  have cut : words [32,108,115,32,32,120] = [[108,115],[120]] := by decide
  obtain ⟨argv,line,ran,found,_,_⟩ := (runCommand_words (literal_holds (by decide)) (by decide)).2 _ _ cut
  rw [cut] at found
  exact ⟨argv,line,ran.trans rfl,found⟩

end Buenos.Userland.Shell
