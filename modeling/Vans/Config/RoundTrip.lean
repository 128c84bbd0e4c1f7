import Vans.Config.Model
import Mathlib.Logic.Function.Basic
/-!
# Configuration files — what is printed and what is read

A printed file is a list of lines: comments, sections and entries, each
with white space wherever one likes. What it means is the settings its
sections and entries leave, a later entry replacing an earlier one. The
reader recovers exactly these settings, unless an entry written with an
equals sign has a colon in its value: the key then runs on to the colon.
-/

namespace Vans

open Lines Numerals

/-! ## Settings -/

/-- The sections there are, and the keys and values of each. -/
abbrev Settings := Text → Option (Text → Option Text)

/-- What a line does. -/
inductive Act where
  | openSection (name : Text)
  | set (key value : Text)

namespace Settings

/-- The settings so far, and the section that is open. -/
structure View where
  settings : Settings := fun _ => none
  current : Option Text := none

/-- A section is opened anew or again; a value is set in the open
section, and takes the place of the one before. -/
def View.apply (w : View) : Act → View
  | .openSection name =>
    { settings := Function.update w.settings name (some ((w.settings name).getD fun _ => none))
      current := some name }
  | .set key value =>
    match w.current with
    | none => w
    | some name =>
      let keys := Function.update ((w.settings name).getD fun _ => none) key (some value)
      { w with settings := Function.update w.settings name (some keys) }

/-- **What the acts leave.** -/
def settle (acts : List Act) : Settings := (acts.foldl View.apply {}).settings

/-- Some section has the key. -/
def HasKey (settings : Settings) (key : Text) : Prop :=
  ∃ name keys, settings name = some keys ∧ (keys key).isSome

section Facts

variable {w : View} {acts : List Act} {act : Act} {name key key' value : Text}

/-- No act takes a key away. -/
theorem apply_keeps (h : HasKey w.settings key) : HasKey (w.apply act).settings key := by
  obtain ⟨name, keys, hname, hkey⟩ := h
  cases act with
  | openSection name' =>
      by_cases heq : name = name'
      · subst heq
        exact ⟨name, keys, by simp [View.apply, hname], hkey⟩
      · exact ⟨name, keys, by simp [View.apply, heq, hname], hkey⟩
  | set key' value =>
      rcases hcur : w.current with _ | name'
      · exact ⟨name, keys, by simp [View.apply, hcur, hname], hkey⟩
      · by_cases heq : name = name'
        · subst heq
          refine ⟨name, Function.update keys key' (some value), by simp [View.apply, hcur, hname], ?_⟩
          by_cases hkeys : key = key'
          · simp [hkeys]
          · rwa [Function.update_of_ne hkeys]
        · exact ⟨name, keys, by simp [View.apply, hcur, heq, hname], hkey⟩

theorem foldl_keeps_key (h : HasKey w.settings key) :
    HasKey (acts.foldl View.apply w).settings key := by
  induction acts generalizing w with
  | nil => exact h
  | cons act acts ih => exact ih (apply_keeps h)

/-- A key there is was there, or is set by the act. -/
theorem hasKey_apply (h : HasKey (w.apply act).settings key) :
    HasKey w.settings key ∨ ∃ value, act = .set key value := by
  obtain ⟨name, keys, hname, hkey⟩ := h
  cases act with
  | openSection name' =>
      left
      by_cases heq : name = name'
      · subst heq
        simp only [View.apply, Function.update_self, Option.some.injEq] at hname
        subst hname
        cases hkeys : w.settings name with
        | none => simp [hkeys] at hkey
        | some keys => exact ⟨name, keys, hkeys, by simpa [hkeys] using hkey⟩
      · simp only [View.apply, Function.update_of_ne heq] at hname
        exact ⟨name, keys, hname, hkey⟩
  | set key' value =>
      rcases hcur : w.current with _ | name'
      · simp only [View.apply, hcur] at hname
        exact .inl ⟨name, keys, hname, hkey⟩
      · simp only [View.apply, hcur] at hname
        by_cases hkeys : key = key'
        · exact .inr ⟨value, by rw [hkeys]⟩
        · left
          by_cases heq : name = name'
          · subst heq
            simp only [Function.update_self, Option.some.injEq] at hname
            subst hname
            rw [Function.update_of_ne hkeys] at hkey
            cases hold : w.settings name with
            | none => simp [hold] at hkey
            | some keys => exact ⟨name, keys, hold, by simpa [hold] using hkey⟩
          · rw [Function.update_of_ne heq] at hname
            exact ⟨name, keys, hname, hkey⟩

/-- **A key there is was set.** -/
theorem set_of_hasKey (h : HasKey (acts.foldl View.apply w).settings key) :
    HasKey w.settings key ∨ ∃ value, Act.set key value ∈ acts := by
  induction acts generalizing w with
  | nil => exact .inl h
  | cons act acts ih =>
      rcases ih h with hstep | ⟨value, hmem⟩
      · rcases hasKey_apply hstep with hold | ⟨value, rfl⟩
        · exact .inl hold
        · exact .inr ⟨value, List.mem_cons_self⟩
      · exact .inr ⟨value, List.mem_cons_of_mem _ hmem⟩

/-- **A key that is set in an open section is there.** -/
theorem hasKey_of_set (hcur : w.current.isSome) (h : Act.set key value ∈ acts) :
    HasKey (acts.foldl View.apply w).settings key := by
  induction acts generalizing w with
  | nil => cases h
  | cons act acts ih =>
      have hopen : (w.apply act).current.isSome := by
        obtain ⟨name, hname⟩ := Option.isSome_iff_exists.mp hcur
        cases act <;> simp [View.apply, hname]
      rcases List.mem_cons.mp h with rfl | hmem
      · obtain ⟨name, hname⟩ := Option.isSome_iff_exists.mp hcur
        have hset : HasKey (w.apply (.set key value)).settings key := by
          refine ⟨name, Function.update ((w.settings name).getD fun _ => none) key (some value), ?_, ?_⟩
          · simp [View.apply, hname]
          · simp
        rw [List.foldl_cons]
        exact foldl_keeps_key hset
      · exact ih hopen hmem

end Facts

end Settings

/-! ## Printed files -/

namespace RootConfig

/-- The signs between a key and its value. -/
inductive Delimiter where
  | colon
  | equals
  deriving DecidableEq, Repr

def Delimiter.char : Delimiter → Char
  | colon => ':'
  | equals => '='

/-- No white space. -/
def Solid (s : Text) : Prop := s.all (fun c => !isSpace c) = true

instance (s : Text) : Decidable (Solid s) :=
  inferInstanceAs (Decidable (s.all (fun c => !isSpace c) = true))

/-- What a line of a file says, white space aside. -/
inductive Content where
  | blank
  /-- A comment, of either mark, without its white space. -/
  | comment (mark : Char) (text : Text) (hmark : mark = '#' ∨ mark = ';') (solid : Solid text)
  | header (name : Text) (ne : name ≠ []) (solid : Solid name)
  | entry (key : Text) (delimiter : Delimiter) (value : Text) (ne : key ≠ []) (solid : Solid key)
      (delimits : ':' ∉ key ∧ '=' ∉ key)
      (first : key.head? ≠ some '[' ∧ key.head? ≠ some '#' ∧ key.head? ≠ some ';')
      (solid' : Solid value)

namespace Content

/-- The text of the line, white space aside. -/
def core : Content → Text
  | blank => []
  | comment mark text _ _ => mark :: text
  | header name _ _ => '[' :: (name ++ [']'])
  | entry key delimiter value _ _ _ _ _ => key ++ delimiter.char :: value

/-- **What the line means.** -/
def act : Content → Option Act
  | blank | comment _ _ _ _ => none
  | header name _ _ => some (.openSection name)
  | entry key _ value _ _ _ _ _ => some (.set key value)

/-- The line is an entry with an equals sign and a colon in its value. -/
def Ambiguous : Content → Prop
  | entry _ delimiter value _ _ _ _ _ => delimiter = .equals ∧ ':' ∈ value
  | _ => False

def IsEntry : Content → Prop
  | entry .. => True
  | _ => False

def IsHeader : Content → Prop
  | header .. => True
  | _ => False

end Content

/-- A line of a file: what it says, with any spacing. -/
structure Line where
  content : Content
  raw : Text
  newline : '\n' ∉ raw
  spacing : raw.filter (fun c => !isSpace c) = content.core

/-- Every entry has a section before it. -/
def Opened : List Line → Prop
  | [] => True
  | l :: ls => ¬ l.content.IsEntry ∧ (l.content.IsHeader ∨ Opened ls)

/-- A printed file: its lines, and a last line without a newline where
there is one. -/
structure File where
  lines : List Line
  last : Option Line := none
  ne : ∀ l ∈ last, l.raw ≠ []
  opened : Opened (lines ++ last.toList)

namespace File

def allLines (file : File) : List Line := file.lines ++ file.last.toList

def text (file : File) : Text := unlines (file.lines.map Line.raw) ++ file.last.elim [] Line.raw

/-- **The settings the file prints.** -/
def settings (file : File) : Settings :=
  Settings.settle (file.allLines.filterMap fun l => l.content.act)

end File

/-- The settings a configuration holds. -/
def settings (root : RootConfig) : Settings :=
  fun name => (root.cfg.lookup name).map fun cfg key => cfg.cfg.lookup key

/-- **The file is recovered**: it is read, and what is read are the
settings it prints. -/
def Recovered (file : File) : Prop := ∃ root, read file.text = .ok root ∧ root.settings = file.settings

/-! ## Reading a line -/

namespace Content

/-- What the reader makes of the line. -/
def readAct (c : Content) : Option Act :=
  match c with
  | entry _ _ _ _ _ _ _ _ =>
    (delimiterPos c.core).map fun pos => .set (c.core.take pos) (c.core.drop (pos + 1))
  | _ => c.act

section Split

variable {key value : Text} {d : Char} {c : Content}

theorem findIdx?_delimiter (h : d ∉ key) : (key ++ d :: value).findIdx? (· = d) = some key.length := by
  induction key with
  | nil => simp [List.findIdx?_cons]
  | cons c key ih =>
      obtain ⟨hc, hkey⟩ := List.ne_and_not_mem_of_not_mem_cons h
      rw [List.cons_append, List.findIdx?_cons, ih hkey]
      simp [Ne.symm hc]

theorem findIdx?_notMem {s : Text} (h : d ∉ s) : s.findIdx? (· = d) = none := by
  rw [List.findIdx?_eq_none_iff]
  intro c hc
  simp only [decide_eq_false_iff_not]
  rintro rfl
  exact h hc

theorem drop_delimiter : (key ++ d :: value).drop (key.length + 1) = value := by
  simp

/-- **An entry is read as what it means** unless it is ambiguous. -/
theorem readAct_eq (h : ¬ c.Ambiguous) : c.readAct = c.act := by
  cases c with
  | entry key delimiter value ne solid delimits first solid' =>
      have hpos : delimiterPos (key ++ delimiter.char :: value) = some key.length := by
        cases delimiter with
        | colon => rw [delimiterPos, Delimiter.char, findIdx?_delimiter delimits.1]
        | equals =>
            have hvalue : ':' ∉ value := fun hmem => h ⟨rfl, hmem⟩
            have hcolon : ':' ∉ key ++ '=' :: value := by simp [delimits.1, hvalue]
            rw [delimiterPos, Delimiter.char, findIdx?_notMem hcolon, findIdx?_delimiter delimits.2]
      simp [readAct, act, core, hpos]
  | _ => rfl

/-- **The key of an ambiguous entry runs on to the colon**, over the
equals sign. -/
theorem readAct_ambiguous (h : c.Ambiguous) :
    ∃ key value, c.readAct = some (.set key value) ∧ '=' ∈ key := by
  cases c with
  | entry key delimiter value ne solid delimits first solid' =>
      obtain ⟨rfl, hmem⟩ := h
      obtain ⟨front, back, rfl, hfront⟩ := List.eq_append_cons_of_mem hmem
      have hkey : ':' ∉ key ++ '=' :: front := by simp [delimits.1, hfront]
      have hcore : key ++ '=' :: (front ++ ':' :: back) = (key ++ '=' :: front) ++ ':' :: back := by
        simp
      refine ⟨key ++ '=' :: front, back, ?_, by simp⟩
      have hpos : delimiterPos ((key ++ '=' :: front) ++ ':' :: back) =
          some (key ++ '=' :: front).length := by rw [delimiterPos, findIdx?_delimiter hkey]
      simp only [readAct, core, Delimiter.char, hcore, hpos, Option.map_some, List.take_left,
        drop_delimiter]
  | blank | comment | header => cases h

/-- What an unambiguous file sets has no equals sign in its key. -/
theorem key_of_act {key value : Text} (h : c.act = some (.set key value)) : '=' ∉ key := by
  cases c with
  | entry key' delimiter value' ne solid delimits first solid' =>
      obtain ⟨rfl, -⟩ := Act.set.inj (Option.some.inj h)
      exact delimits.2
  | header => cases h
  | blank | comment => cases h

end Split

end Content

namespace Reading

/-- What is read so far, as the settings see it. -/
def view (st : Reading) : Settings.View where
  settings := st.root.settings
  current := if st.currSection = [] then none else some st.currSection

/-- The open section is there. -/
def Held (st : Reading) : Prop :=
  st.currSection = [] ∨ (st.root.cfg.lookup st.currSection).isSome

variable {st : Reading} {name key value : Text} {c : Content} {raw : Text}

/-- **Opening a section** is what the act says. -/
theorem view_openSection (hname : name ≠ []) :
    (openSection name st).view = st.view.apply (.openSection name) ∧ (openSection name st).Held := by
  have hcurrent : (openSection name st).currSection = name := rfl
  cases hlook : st.root.cfg.lookup name with
  | some cfg =>
      have hroot : (openSection name st).root = st.root := by simp [openSection, hlook]
      refine ⟨?_, .inr (by rw [hcurrent, hroot, hlook]; rfl)⟩
      have hkeep : Function.update st.root.settings name
          (some ((st.root.settings name).getD fun _ => none)) = st.root.settings := by
        refine Function.update_eq_self_iff.mpr ?_
        simp [settings, hlook]
      simp only [view, hroot, hcurrent, hname, if_false, Settings.View.apply, hkeep]
  | none =>
      have hroot : (openSection name st).root.cfg =
          st.root.cfg.insert name { sectionName := name } := by simp [openSection, hlook]
      refine ⟨?_, .inr (by rw [hcurrent, hroot, AList.lookup_insert]; rfl)⟩
      simp only [view, hcurrent, hname, if_false, Settings.View.apply, Settings.View.mk.injEq, and_true]
      funext other
      by_cases heq : other = name
      · subst heq
        simp [settings, hroot, hlook]
      · simp [settings, hroot, heq]

/-- **Storing a value** is what the act says. -/
theorem view_store (hheld : st.Held) (hcurrent : st.currSection ≠ []) :
    ∃ st', store key value st = .ok st' ∧ st'.view = st.view.apply (.set key value) ∧
      st'.currSection = st.currSection ∧ st'.Held := by
  obtain ⟨cfg, hlook⟩ := Option.isSome_iff_exists.mp (hheld.resolve_left hcurrent)
  refine ⟨{ st with root := { cfg := st.root.cfg.insert st.currSection
                                { cfg with cfg := cfg.cfg.insert key value } } },
    by simp only [store, atKey, hlook]; rfl, ?_, rfl, .inr (by simp)⟩
  simp only [view, hcurrent, if_false, Settings.View.apply, Settings.View.mk.injEq, and_true]
  funext other
  by_cases heq : other = st.currSection
  · subst heq
    simp only [settings, AList.lookup_insert, Function.update_self, hlook, Option.map_some,
      Option.getD_some, Option.some.injEq]
    funext key'
    by_cases hkey : key' = key
    · rw [hkey, Function.update_self]
      exact AList.lookup_insert _
    · rw [Function.update_of_ne hkey]
      exact AList.lookup_insert_ne hkey
  · simp [settings, heq]

/-- **A line does what is read of it**, where an entry finds a section
open. -/
theorem readLine_spec (hraw : raw.filter (fun c => !isSpace c) = c.core) (hheld : st.Held)
    (hopen : c.IsEntry → st.currSection ≠ []) :
    ∃ st', readLine st raw = .ok st' ∧
      st'.view = (c.readAct.elim st.view st.view.apply) ∧ st'.Held ∧
      (st.currSection ≠ [] ∨ c.IsHeader → st'.currSection ≠ []) := by
  cases c with
  | blank =>
      refine ⟨st, ?_, rfl, hheld, by simp [Content.IsHeader]⟩
      simp [readLine, hraw, Content.core, pure, Except.pure]
  | comment mark text hmark solid =>
      refine ⟨st, ?_, rfl, hheld, by simp [Content.IsHeader]⟩
      simp [readLine, hraw, Content.core, hmark, pure, Except.pure]
  | header name ne solid =>
      refine ⟨openSection name st, ?_, (view_openSection ne).1, (view_openSection ne).2, fun _ => ne⟩
      simp [readLine, hraw, Content.core, pure, Except.pure]
  | entry key delimiter value ne solid delimits first solid' =>
      obtain ⟨d, ds, rfl⟩ := List.exists_cons_of_ne_nil ne
      obtain ⟨hsection, hhash, hsemi⟩ := first
      simp only [List.head?_cons, ne_eq, Option.some.injEq] at hsection hhash hsemi
      have hcurrent := hopen trivial
      obtain ⟨pos, hpos⟩ : ∃ pos, delimiterPos ((d :: ds) ++ delimiter.char :: value) = some pos := by
        unfold delimiterPos
        split
        · exact ⟨_, rfl⟩
        · next hnone =>
            cases delimiter with
            | colon => rw [Delimiter.char, Content.findIdx?_delimiter delimits.1] at hnone; cases hnone
            | equals => exact ⟨_, Content.findIdx?_delimiter delimits.2⟩
      obtain ⟨st', hstore, hview, hcur, hheld'⟩ := @view_store st
        (((d :: ds) ++ delimiter.char :: value).take pos)
        (((d :: ds) ++ delimiter.char :: value).drop (pos + 1)) hheld hcurrent
      refine ⟨st', ?_, ?_, hheld', fun _ => hcur ▸ hcurrent⟩
      · simp only [readLine, hraw, Content.core]
        simp only [List.cons_append, List.head?_cons, Option.some.injEq, hhash, hsemi, hsection,
          hcurrent, List.cons_ne_nil, or_self, false_and, if_false]
        rw [← List.cons_append, hpos]
        exact hstore
      · simp only [Content.readAct, Content.core, hpos, Option.map_some, Option.elim_some]
        exact hview

/-- **The lines do what is read of them**, one after the other. -/
theorem foldlM_readLine {ls : List Line} (hheld : st.Held)
    (hopen : st.currSection ≠ [] ∨ Opened ls) :
    ∃ st', (ls.map Line.raw).foldlM readLine st = .ok st' ∧
      st'.view = (ls.filterMap fun l => l.content.readAct).foldl Settings.View.apply st.view := by
  induction ls generalizing st with
  | nil => exact ⟨st, rfl, rfl⟩
  | cons l ls ih =>
      have hentry : l.content.IsEntry → st.currSection ≠ [] := by
        intro he
        rcases hopen with hcur | hopened
        · exact hcur
        · exact absurd he hopened.1
      obtain ⟨st₁, hread, hview, hheld₁, hcur₁⟩ := readLine_spec l.spacing hheld hentry
      have hopen₁ : st₁.currSection ≠ [] ∨ Opened ls := by
        rcases hopen with hcur | ⟨-, hheader | hopened⟩
        · exact .inl (hcur₁ (.inl hcur))
        · exact .inl (hcur₁ (.inr hheader))
        · exact .inr hopened
      obtain ⟨st', hfold, hview'⟩ := ih hheld₁ hopen₁
      refine ⟨st', ?_, ?_⟩
      · rw [List.map_cons, List.foldlM_cons, hread]
        exact hfold
      · rw [hview', hview]
        cases hact : l.content.readAct with
        | none => simp only [List.filterMap_cons, hact, Option.elim_none]
        | some act => simp only [List.filterMap_cons, hact, List.foldl_cons, Option.elim_some]

end Reading

/-! ## Reading a file -/

section Files

variable {file : File}

theorem linesOf_text : linesOf file.text = file.allLines.map Line.raw := by
  have hlines : ∀ raw ∈ file.lines.map Line.raw, '\n' ∉ raw := by
    intro raw hraw
    obtain ⟨l, -, rfl⟩ := List.mem_map.mp hraw
    exact l.newline
  rw [File.text, File.allLines, List.map_append]
  cases hlast : file.last with
  | none =>
      rw [Option.elim_none, List.append_nil, linesOf_unlines hlines]
      simp
  | some l => simp [linesOf, toLines_unlines hlines l.newline, file.ne l hlast]

/-- **Every printed file is read**, and its lines do what is read of
them. -/
theorem read_text : ∃ root, read file.text = .ok root ∧
    root.settings = Settings.settle (file.allLines.filterMap fun l => l.content.readAct) := by
  obtain ⟨st, hfold, hview⟩ := @Reading.foldlM_readLine {} file.allLines (.inl rfl) (.inr file.opened)
  refine ⟨st.root, ?_, congrArg Settings.View.settings hview⟩
  rw [read, linesOf_text, hfold]
  rfl

/-- The first act of a file opens a section. -/
theorem acts_of_opened {ls : List Line} (h : Opened ls) :
    (ls.filterMap fun l => l.content.readAct) = [] ∨
      ∃ name acts, (ls.filterMap fun l => l.content.readAct) = .openSection name :: acts := by
  induction ls with
  | nil => exact .inl rfl
  | cons l ls ih =>
      obtain ⟨hentry, hheader⟩ := h
      cases hcontent : l.content with
      | entry => exact absurd (by rw [hcontent]; trivial) hentry
      | header name ne solid =>
          exact .inr ⟨name, _, List.filterMap_cons_some (by rw [hcontent]; rfl)⟩
      | blank | comment =>
          rw [List.filterMap_cons_none (by rw [hcontent]; rfl)]
          exact ih (hheader.resolve_left (by rw [hcontent]; exact id))

/-- **A file is recovered** exactly where no entry written with an equals
sign has a colon in its value. The sections may come in any order and
any number of times, with comments and white space anywhere; a later
entry takes the place of an earlier one, and of no other. -/
theorem recovered_iff (file : File) :
    Recovered file ↔ ∀ l ∈ file.allLines, ¬ l.content.Ambiguous := by
  obtain ⟨root, hread, hsettings⟩ := @read_text file
  constructor
  · rintro ⟨root', hread', hrecovered⟩ l hl hambiguous
    obtain rfl := Except.ok.inj (hread.symm.trans hread')
    obtain ⟨key, value, hact, hequals⟩ := Content.readAct_ambiguous hambiguous
    have hmem : Act.set key value ∈ file.allLines.filterMap fun l => l.content.readAct :=
      List.mem_filterMap.mpr ⟨l, hl, hact⟩
    -- the key that ran on is among the keys read
    have hkey : root.settings.HasKey key := by
      rw [hsettings]
      rcases acts_of_opened file.opened with hnil | ⟨name, acts, hacts⟩
      · rw [File.allLines, hnil] at hmem
        cases hmem
      · rw [File.allLines, hacts] at hmem ⊢
        rcases List.mem_cons.mp hmem with heq | hmem
        · cases heq
        · exact @Settings.hasKey_of_set (Settings.View.apply {} (.openSection name)) _ _ _ rfl hmem
    rw [hrecovered] at hkey
    rcases Settings.set_of_hasKey hkey with ⟨name, keys, hname, -⟩ | ⟨value', hmem'⟩
    · cases hname
    · obtain ⟨l', -, hact'⟩ := List.mem_filterMap.mp hmem'
      exact Content.key_of_act hact' hequals
  · intro hplain
    refine ⟨root, hread, hsettings.trans ?_⟩
    rw [File.settings, List.filterMap_congr fun l hl => Content.readAct_eq (hplain l hl)]

/-- `[dump]`, and a path with a colon. -/
def colonPath : File where
  lines :=
    [⟨.header "dump".toList (by decide +kernel) (by decide +kernel), "[dump]".toList,
        by decide +kernel, by decide +kernel⟩,
      ⟨.entry "path".toList .equals "C:dump".toList (by decide +kernel) (by decide +kernel)
          (by decide +kernel) (by decide +kernel) (by decide +kernel), "path = C:dump".toList,
        by decide +kernel, by decide +kernel⟩]
  ne := by simp
  opened := ⟨fun h => h, .inl trivial⟩

/-- **The key takes the start of the value**: `path=C`, with the value
`dump`. -/
theorem colonPath_not_recovered :
    (read colonPath.text).map (fun root => (root.settings "dump".toList).map fun keys =>
        (keys "path".toList, keys "path=C".toList)) = .ok (some (none, some "dump".toList)) ∧
      ¬ Recovered colonPath := by
  have hread : (read colonPath.text).map (fun root => (root.settings "dump".toList).map fun keys =>
      (keys "path".toList, keys "path=C".toList)) = .ok (some (none, some "dump".toList)) := by
    decide +kernel
  refine ⟨hread, ?_⟩
  rintro ⟨root, hroot, hsettings⟩
  rw [hroot] at hread
  have hkeys := Except.ok.inj hread
  dsimp only at hkeys
  rw [hsettings] at hkeys
  exact absurd hkeys (by decide +kernel)

end Files

end RootConfig

end Vans
