/-
# The frame around a streamed reply

A streamed reply arrives inside a frame: feedback about models unloaded and
loaded, a marker, the reply, another marker, a table of statistics. Chat clients
send all of it back as the assistant's turn, so the next request strips the
frame by searching for the two markers.

The reply is whatever the model said, markers included. What makes the frame
removable is where it puts its own markers: the first one stands before the
reply and the last one behind it, each set off by a newline.
-/

import BurnLm.Math.Text

namespace BurnLm.Http

open BurnLm.Math

universe u

def replyMarker : Text := "##### Model Reply".toList

def statsMarker : Text := "##### BurnLM Stats".toList

/-- What is searched of a message. -/
structure Message where
  content : Text
  deriving DecidableEq

/-- Keep the text between the first occurrence of `start` and the last occurrence
of `stop`. Nothing is a cut inside a character, which stops the request. -/
def Message.cleanup (message : Message) (start stop : Text) : Option Message :=
  if start = [] ∨ stop = [] then some message
  else
    match Text.find start message.content with
    | none => some message
    | some startIndex =>
      let contentStart := startIndex + start.byteLen
      match Text.rfind stop message.content with
      | none => some message
      | some lastEndIndex =>
        if lastEndIndex ≥ contentStart then
          (message.content.slice contentStart lastEndIndex).map Message.mk
        else some message

/-! ## The pieces of a stream -/

/-- A statistic, over durations `D`. -/
inductive StatEntry (D : Type u)
  | inferenceDuration (duration : D)
  | modelDownloadingDuration (duration : D)
  | modelLoadingDuration (duration : D)
  | named (name value : Text)
  | tokensCount (count : ℕ)
  | tokensPerSecond (count : ℕ) (duration : D)
  | totalDuration (duration : D)

/-- How numbers and tables are written. -/
structure Writer (D : Type u) where
  /-- A duration's seconds, with two decimals. -/
  seconds : D → Text
  /-- Tokens divided by seconds, with two decimals, where that makes sense. -/
  perSecond : ℕ → D → Option Text
  /-- A header and rows, as a table. -/
  table : List Text → List (List Text) → Text

variable {D : Type u} (writer : Writer D)

/-- A statistic's row of the table. -/
def StatEntry.row : StatEntry D → List Text
  | .tokensPerSecond count duration =>
    ["Tokens Per Second".toList, (writer.perSecond count duration).getD "N/A".toList]
  | .tokensCount count => ["Tokens Count".toList, Nat.toDigits 10 count]
  | .inferenceDuration duration =>
    ["Inference Duration".toList, writer.seconds duration ++ ['s']]
  | .modelDownloadingDuration duration =>
    ["Model Downloading Duration".toList, writer.seconds duration ++ ['s']]
  | .modelLoadingDuration duration =>
    ["Model Loading Duration".toList, writer.seconds duration ++ ['s']]
  | .totalDuration duration => ["Total Duration".toList, writer.seconds duration ++ ['s']]
  | .named name value => [name, value]

def statsHeader : List Text := ["Statistic Name".toList, "Value".toList]

/-- The statistics, under their marker. -/
def displayStats (entries : List (StatEntry D)) : Text :=
  ['\n'] ++ statsMarker ++ ['\n'] ++ writer.table statsHeader (entries.map (StatEntry.row writer))

/-- Feedback on an unloaded model. -/
def unloadedChunk (name : Text) : Text :=
  "```Burn LM\nUnloaded model ".toList ++ '\'' :: (name ++ '\'' :: "!\n```\n\n".toList)

def loadingChunk (name : Text) : Text :=
  "```Burn LM\nloading model ".toList ++ '\'' :: (name ++ '\'' :: "... ".toList)

/-- Feedback on a loaded model, with the time it took if that is known. -/
def loadedChunk (duration : Option D) : Text :=
  "model loaded ! ✓".toList ++
    (match duration with
      | some duration => " (".toList ++ writer.seconds duration ++ "s)".toList
      | none => []) ++ "\n```\n\n".toList

/-- What a request's stream starts from and ends with. -/
structure Reply (D : Type u) where
  oldModelName : Option Text
  modelName : Text
  /-- Whether the model has to be loaded, and the time that takes if known. -/
  loading : Option (Option D)
  /-- The texts the listener is handed. -/
  texts : List Text
  stats : List (StatEntry D)

/-- The chunks before the answer. -/
def Reply.preamble (reply : Reply D) : List Text :=
  (reply.oldModelName.toList.map unloadedChunk) ++
    match reply.loading with
    | none => []
    | some duration => [loadingChunk reply.modelName, loadedChunk writer duration]

/-- The chunks of a request that completes, in order. -/
def Reply.chunks (reply : Reply D) : List Text :=
  reply.preamble writer ++ [['\n'] ++ replyMarker ++ ['\n']] ++ reply.texts ++
    [['\n', '\n'] ++ displayStats writer reply.stats]

/-! ## What the writers keep to -/

/-- Part of a cell, padded with blanks. -/
def PaddedFragment (cells : List Text) (field : Text) : Prop :=
  ∃ cell ∈ cells, ∃ fragment, fragment <:+: cell ∧ ∃ left right,
    field = List.replicate left ' ' ++ (fragment ++ List.replicate right ' ')

/-- A line of a markdown table: the rule under the header, or fields between
bars. A cell too wide for its column continues on the next line. -/
inductive TableLine (cells : List Text) : Text → Prop
  | rule (line : Text) (hline : ∀ char ∈ line, char = '|' ∨ char = '-') : TableLine cells line
  | row (fields : List Text) (hfields : ∀ field ∈ fields, PaddedFragment cells field) :
      TableLine cells ('|' :: fields.flatMap (· ++ ['|']))

/-- Lines of a table over the given cells. -/
def IsTable (cells : List Text) (table : Text) : Prop :=
  ∃ lines, table = ['\n'].intercalate lines ∧ ∀ line ∈ lines, TableLine cells line

/-- Numbers are written with digits and a point, tables as tables. -/
structure Writer.Lawful (writer : Writer D) : Prop where
  seconds : ∀ duration, ∀ char ∈ writer.seconds duration, char.isDigit ∨ char = '.'
  perSecond : ∀ count duration, ∀ text ∈ writer.perSecond count duration,
    ∀ char ∈ text, char.isDigit ∨ char = '.'
  table : ∀ header rows, IsTable (header ++ rows.flatten) (writer.table header rows)

/-! ## Where the markers are -/

section Markers

variable {marker : Text}

/-- A text that lacks a character of the marker does not contain the marker. -/
theorem not_infix_of_notMem {text : Text} {char : Char} (hchar : char ∈ marker)
    (htext : char ∉ text) : ¬ marker <:+: text := fun hinside =>
  htext (hinside.subset hchar)

/-- Texts without the marker, joined by something it lacks. -/
theorem not_infix_append_cons {before after : Text} {separator : Char}
    (hseparator : separator ∉ marker) (hbefore : ¬ marker <:+: before)
    (hafter : ¬ marker <:+: after) : ¬ marker <:+: before ++ separator :: after := fun hinside =>
  ((Text.infix_append_cons_iff hseparator).mp hinside).elim hbefore hafter

/-- Neither does a text that has it nowhere outside a quoted name. -/
theorem not_infix_quoted {front before name after rest : Text} (hhash : '#' ∈ marker)
    (hquote : '\'' ∉ marker) (hfront : '#' ∉ front) (hbefore : '#' ∉ before)
    (hname : ¬ marker <:+: name) (hrest : ¬ marker <:+: after ++ rest) :
    ¬ marker <:+: front ++ (before ++ '\'' :: (name ++ '\'' :: after) ++ rest) := by
  have hsplit : front ++ (before ++ '\'' :: (name ++ '\'' :: after) ++ rest) =
      (front ++ before) ++ '\'' :: (name ++ '\'' :: (after ++ rest)) := by simp
  have hopening : '#' ∉ front ++ before := fun hmem =>
    (List.mem_append.mp hmem).elim hfront hbefore
  rw [hsplit]
  exact not_infix_append_cons hquote (not_infix_of_notMem hhash hopening)
    (not_infix_append_cons hquote hname hrest)

/-- Padding hides no marker that begins and ends with other characters. -/
theorem infix_of_infix_padded {fragment : Text} {pad : Char} {left right : ℕ}
    (hhead : marker.head? ≠ some pad) (hlast : marker.getLast? ≠ some pad) (hmarker : marker ≠ [])
    (hinside : marker <:+: List.replicate left pad ++ (fragment ++ List.replicate right pad)) :
    marker <:+: fragment := by
  have hfront : ∀ (count : ℕ) (pattern text : Text), pattern ≠ [] → pattern.head? ≠ some pad →
      pattern <:+: List.replicate count pad ++ text → pattern <:+: text := by
    intro count pattern text hpattern hpad hinside
    induction count with
    | zero => simpa using hinside
    | succ count ih =>
        rw [List.replicate_succ, List.cons_append] at hinside
        rcases List.infix_cons_iff.mp hinside with hstart | hinside
        · cases pattern with
          | nil => exact absurd rfl hpattern
          | cons char pattern =>
              exact absurd (congrArg some (List.cons_prefix_cons.mp hstart).1) hpad
        · exact ih hinside
  have hback := hfront left marker _ hmarker hhead hinside
  rw [← List.reverse_infix, List.reverse_append, List.reverse_replicate] at hback
  rw [← List.reverse_infix]
  exact hfront right marker.reverse fragment.reverse (by simpa using hmarker)
    (by simpa using hlast) hback

/-- A table has no marker its cells do not have. -/
theorem IsTable.not_infix_of_cells {cells : List Text} {table : Text} (htable : IsTable cells table)
    (hcells : ∀ cell ∈ cells, ¬ marker <:+: cell) (hhash : '#' ∈ marker)
    (hbar : '|' ∉ marker) (hnewline : '\n' ∉ marker) (hhead : marker.head? ≠ some ' ')
    (hlast : marker.getLast? ≠ some ' ') : ¬ marker <:+: table := by
  have hmarker : marker ≠ [] := List.ne_nil_of_mem hhash
  have hnil : ¬ marker <:+: [] := fun hinside => hmarker (List.infix_nil.mp hinside)
  have hline : ∀ line, TableLine cells line → ¬ marker <:+: line := by
    intro line hline
    cases hline with
    | rule _ hchars =>
        exact not_infix_of_notMem hhash fun hmem => by
          rcases hchars '#' hmem with heq | heq <;> exact absurd heq (by decide)
    | row fields hfields =>
        refine @not_infix_append_cons _ [] _ _ hbar hnil ?_
        induction fields with
        | nil => exact hnil
        | cons field fields ih =>
            obtain ⟨cell, hcell, fragment, hfragment, left, right, rfl⟩ :=
              hfields _ List.mem_cons_self
            have hrest := ih fun other hother => hfields other (List.mem_cons_of_mem _ hother)
            rw [List.flatMap_cons, List.append_assoc, List.singleton_append]
            refine not_infix_append_cons hbar (fun hinside => hcells cell hcell ?_) hrest
            exact (infix_of_infix_padded hhead hlast hmarker hinside).trans hfragment
  obtain ⟨lines, rfl, hlines⟩ := htable
  induction lines with
  | nil => exact hnil
  | cons line lines ih =>
      have hfirst := hline line (hlines line List.mem_cons_self)
      cases lines with
      | nil => simpa [List.intercalate] using hfirst
      | cons second lines =>
          have hrest := ih fun other hother => hlines other (List.mem_cons_of_mem _ hother)
          rw [List.intercalate_cons_cons, List.append_assoc, List.singleton_append]
          exact not_infix_append_cons hnewline hfirst hrest

end Markers

/-! ## Stripping the frame -/

section Stripping

variable {writer : Writer D} (hwriter : writer.Lawful)
include hwriter

/-- Seconds are written without a hash sign. -/
theorem hash_notMem_seconds (duration : D) : '#' ∉ writer.seconds duration := fun hmem => by
  rcases hwriter.seconds duration '#' hmem with hdigit | hpoint
  · exact absurd hdigit (by decide)
  · exact absurd hpoint (by decide)

/-- So is what follows the name of a model being loaded. -/
theorem hash_notMem_loaded (duration : Option D) :
    '#' ∉ "... ".toList ++ loadedChunk writer duration := by
  have happend : ∀ first second : Text, '#' ∉ first → '#' ∉ second → '#' ∉ first ++ second :=
    fun first second hfirst hsecond hmem => (List.mem_append.mp hmem).elim hfirst hsecond
  refine happend _ _ (by decide +kernel) (happend _ _ (happend _ _ (by decide +kernel) ?_)
    (by decide +kernel))
  cases duration with
  | none => exact List.not_mem_nil
  | some duration =>
      exact happend _ _ (happend _ _ (by decide +kernel) (hash_notMem_seconds hwriter duration))
        (by decide +kernel)

/-- The preamble has no marker that the names of the models do not have. -/
theorem not_infix_preamble {reply : Reply D}
    (hold : ∀ name ∈ reply.oldModelName, ¬ replyMarker <:+: name)
    (hmodel : ¬ replyMarker <:+: reply.modelName) :
    ¬ replyMarker <:+: (reply.preamble writer).flatten := by
  have hquote : '\'' ∉ replyMarker := by decide +kernel
  have hhash : '#' ∈ replyMarker := by decide +kernel
  have hnone : ¬ replyMarker <:+: [] := not_infix_of_notMem hhash List.not_mem_nil
  have hopening : '#' ∉ "```Burn LM\nUnloaded model ".toList := by decide +kernel
  have hloading : ∀ duration front, '#' ∉ front → ¬ replyMarker <:+:
      front ++ (loadingChunk reply.modelName ++ loadedChunk writer duration) :=
    fun duration front hfront => not_infix_quoted hhash hquote hfront (by decide +kernel) hmodel
      (not_infix_of_notMem hhash (hash_notMem_loaded hwriter duration))
  have hunloaded : ∀ name ∈ reply.oldModelName, ∀ rest,
      ¬ replyMarker <:+: "!\n```\n\n".toList ++ rest →
        ¬ replyMarker <:+: unloadedChunk name ++ rest :=
    fun name hname rest hrest => @not_infix_quoted _ [] _ _ _ _ hhash hquote List.not_mem_nil
      hopening (hold name hname) hrest
  obtain ⟨old, model, loading, texts, stats⟩ := reply
  cases old with
  | none =>
      cases loading with
      | none => exact hnone
      | some duration =>
          simpa [Reply.preamble] using hloading duration [] List.not_mem_nil
  | some name =>
      cases loading with
      | none =>
          have hend : ¬ replyMarker <:+: "!\n```\n\n".toList ++ [] :=
            not_infix_of_notMem hhash (by decide +kernel)
          simpa [Reply.preamble] using hunloaded name rfl [] hend
      | some duration =>
          have hend := hloading duration "!\n```\n\n".toList (by decide +kernel)
          simpa [Reply.preamble] using hunloaded name rfl _ hend

/-- A statistic's row does not have the other marker, unless it is named so. -/
theorem not_infix_row {entry : StatEntry D}
    (hentry : ∀ name value, entry = .named name value →
      ¬ statsMarker <:+: name ∧ ¬ statsMarker <:+: value) :
    ∀ cell ∈ entry.row writer, ¬ statsMarker <:+: cell := by
  have hhash : '#' ∈ statsMarker := by decide +kernel
  have hpair : ∀ first second : Text, '#' ∉ first → '#' ∉ second →
      ∀ cell ∈ [first, second], ¬ statsMarker <:+: cell := by
    intro first second hfirst hsecond cell hcell
    rcases List.mem_pair.mp hcell with rfl | rfl
    · exact not_infix_of_notMem hhash hfirst
    · exact not_infix_of_notMem hhash hsecond
  have hseconds : ∀ duration, '#' ∉ writer.seconds duration ++ ['s'] := fun duration hmem =>
    (List.mem_append.mp hmem).elim (hash_notMem_seconds hwriter duration) (by decide)
  cases entry with
  | named name value =>
      intro cell hcell
      rcases List.mem_pair.mp hcell with rfl | rfl
      · exact (hentry _ _ rfl).1
      · exact (hentry _ _ rfl).2
  | tokensCount count =>
      refine hpair _ _ (by decide +kernel) fun hmem => ?_
      exact absurd (Nat.isDigit_of_mem_toDigits (by decide) (by decide) hmem) (by decide)
  | tokensPerSecond count duration =>
      refine hpair _ _ (by decide +kernel) ?_
      cases hrate : writer.perSecond count duration with
      | none => exact (by decide +kernel : '#' ∉ "N/A".toList)
      | some text =>
          intro hmem
          rcases hwriter.perSecond count duration text hrate '#' hmem with hdigit | hpoint
          · exact absurd hdigit (by decide)
          · exact absurd hpoint (by decide)
  | inferenceDuration duration => exact hpair _ _ (by decide +kernel) (hseconds duration)
  | modelDownloadingDuration duration => exact hpair _ _ (by decide +kernel) (hseconds duration)
  | modelLoadingDuration duration => exact hpair _ _ (by decide +kernel) (hseconds duration)
  | totalDuration duration => exact hpair _ _ (by decide +kernel) (hseconds duration)

/-- Nor does the table, if no named statistic has it. -/
theorem not_infix_table {entries : List (StatEntry D)}
    (hentries : ∀ name value, .named name value ∈ entries →
      ¬ statsMarker <:+: name ∧ ¬ statsMarker <:+: value) :
    ¬ statsMarker <:+: writer.table statsHeader (entries.map (StatEntry.row writer)) := by
  have hhash : '#' ∈ statsMarker := by decide +kernel
  have hheader : ∀ label ∈ statsHeader, '#' ∉ label := by decide +kernel
  refine (hwriter.table statsHeader _).not_infix_of_cells (fun cell hcell => ?_) hhash
    (by decide +kernel) (by decide +kernel) (by decide +kernel) (by decide +kernel)
  rcases List.mem_append.mp hcell with hcell | hcell
  · exact not_infix_of_notMem hhash (hheader cell hcell)
  · obtain ⟨row, hrow, hcell⟩ := List.mem_flatten.mp hcell
    obtain ⟨entry, hentry, rfl⟩ := List.mem_map.mp hrow
    exact not_infix_row hwriter (fun name value heq => hentries name value (heq ▸ hentry)) cell hcell

/-- **Stripping the frame gives back the reply.** For every reply, whatever
markers it quotes, every preamble over models whose names lack the reply marker,
and every table over statistics that lack the statistics marker: cleaning the
concatenated chunks up leaves the reply between the newlines the handler sets it
off by, and nothing else. -/
theorem cleanup_chunks {reply : Reply D}
    (hold : ∀ name ∈ reply.oldModelName, ¬ replyMarker <:+: name)
    (hmodel : ¬ replyMarker <:+: reply.modelName)
    (hstats : ∀ name value, .named name value ∈ reply.stats →
      ¬ statsMarker <:+: name ∧ ¬ statsMarker <:+: value) :
    (Message.mk (reply.chunks writer).flatten).cleanup replyMarker statsMarker =
      some ⟨['\n'] ++ reply.texts.flatten ++ ['\n', '\n', '\n']⟩ := by
  have hpreamble := not_infix_preamble hwriter hold hmodel
  have htable := not_infix_table hwriter hstats
  have hreply : replyMarker ≠ [] := by decide +kernel
  have hmarker : statsMarker ≠ [] := by decide +kernel
  generalize hbefore : (reply.preamble writer).flatten = before at hpreamble
  generalize hafter : writer.table statsHeader (reply.stats.map (StatEntry.row writer)) = after
    at htable
  set said : Text := ['\n'] ++ reply.texts.flatten ++ ['\n', '\n', '\n'] with hsaid
  -- the whole text, split at the two searches and at the cut
  have hcontent : (reply.chunks writer).flatten =
      before ++ '\n' :: (replyMarker ++ (said ++ (statsMarker ++ '\n' :: after))) := by
    rw [hsaid, ← hbefore, ← hafter]
    simp [Reply.chunks, displayStats]
  have hfind := @Text.find_append_cons replyMarker before (said ++ (statsMarker ++ '\n' :: after))
    '\n' (by decide +kernel) hreply hpreamble
  have hrfind := Text.rfind_append_cons (by decide +kernel : '\n' ∉ statsMarker) hmarker htable
    (before ++ '\n' :: replyMarker ++ said)
  have hslice := Text.slice_append (before ++ '\n' :: replyMarker) said
    (statsMarker ++ '\n' :: after)
  simp only [List.append_assoc, List.cons_append] at hfind hrfind hslice
  have hstart : Text.byteLen before + '\n'.utf8Size + replyMarker.byteLen =
      Text.byteLen (before ++ '\n' :: replyMarker) := by
    rw [Text.byteLen_append, Text.byteLen_cons, Nat.add_assoc]
  have hstop : Text.byteLen (before ++ '\n' :: (replyMarker ++ said)) =
      Text.byteLen (before ++ '\n' :: replyMarker) + said.byteLen := by
    rw [← List.cons_append, ← List.append_assoc, Text.byteLen_append]
  rw [hcontent, Message.cleanup, if_neg (not_or.mpr ⟨hreply, hmarker⟩)]
  simp only [hfind, hrfind, hstart, hstop, hslice]
  rw [if_pos (Nat.le_add_right _ _), Option.map_some]

end Stripping

/-! ## Markdown tables -/

/-- A cell between blanks, `width` wide, its text to the left or to the right. -/
def field (width : ℕ) (leftAligned : Bool) (cell : Text) : Text :=
  let blanks := width - cell.length
  if leftAligned then [' '] ++ cell ++ List.replicate (blanks + 1) ' '
  else List.replicate (blanks + 1) ' ' ++ cell ++ [' ']

/-- The widest text of a column. -/
def columnWidth (rows : List (List Text)) (column : ℕ) : ℕ :=
  (rows.map fun row => (row.getD column []).length).foldl max 0

def tableRow (widths : List ℕ) (aligned : List Bool) (row : List Text) : Text :=
  '|' :: (((widths.zip aligned).zip row).map fun entry =>
    field entry.1.1 entry.1.2 entry.2).flatMap (· ++ ['|'])

/-- Two columns, the labels to the left and the values to the right. -/
def markdownTable (header : List Text) (rows : List (List Text)) : Text :=
  let widths := [columnWidth (header :: rows) 0, columnWidth (header :: rows) 1]
  let rule := '|' :: widths.flatMap fun width => List.replicate (width + 2) '-' ++ ['|']
  ['\n'].intercalate
    (tableRow widths [true, true] header :: rule :: rows.map (tableRow widths [true, false]))

/-- Durations counted in hundredths of a second. -/
def markdown : Writer ℕ where
  seconds hundredths := Nat.toDigits 10 (hundredths / 100) ++
    '.' :: Nat.toDigits 10 (hundredths % 100 / 10) ++ Nat.toDigits 10 (hundredths % 10)
  perSecond _ _ := none
  table := markdownTable

theorem paddedFragment_field {cells : List Text} {cell : Text} (hcell : cell ∈ cells) (width : ℕ)
    (leftAligned : Bool) : PaddedFragment cells (field width leftAligned cell) := by
  cases leftAligned with
  | true => exact ⟨cell, hcell, cell, List.infix_rfl, 1, width - cell.length + 1, by simp [field]⟩
  | false => exact ⟨cell, hcell, cell, List.infix_rfl, width - cell.length + 1, 1, by simp [field]⟩

theorem tableLine_tableRow {cells row : List Text} (hrow : ∀ cell ∈ row, cell ∈ cells)
    (widths : List ℕ) (aligned : List Bool) : TableLine cells (tableRow widths aligned row) := by
  refine .row _ fun text htext => ?_
  obtain ⟨⟨format, cell⟩, hpair, rfl⟩ := List.mem_map.mp htext
  exact paddedFragment_field (hrow cell (List.of_mem_zip hpair).2) _ _

/-- A markdown table is one. -/
theorem isTable_markdownTable (header : List Text) (rows : List (List Text)) :
    IsTable (header ++ rows.flatten) (markdownTable header rows) := by
  refine ⟨_, rfl, fun line hline => ?_⟩
  rcases List.mem_cons.mp hline with rfl | hline
  · exact tableLine_tableRow (fun cell hcell => List.mem_append_left _ hcell) _ _
  · rcases List.mem_cons.mp hline with rfl | hline
    · refine .rule _ fun char hchar => ?_
      simp only [List.flatMap_cons, List.flatMap_nil, List.mem_cons, List.mem_append,
        List.mem_replicate, List.not_mem_nil] at hchar
      tauto
    · obtain ⟨row, hrow, rfl⟩ := List.mem_map.mp hline
      refine tableLine_tableRow (fun cell hcell => List.mem_append_right _ ?_) _ _
      exact List.mem_flatten.mpr ⟨row, hrow, hcell⟩

theorem markdown_lawful : markdown.Lawful where
  seconds hundredths char hchar := by
    have hdigits : ∀ number, char ∈ Nat.toDigits 10 number → char.isDigit := fun number hmem =>
      Nat.isDigit_of_mem_toDigits (by decide) (by decide) hmem
    simp only [markdown, List.mem_append, List.mem_cons] at hchar
    rcases hchar with (hchar | hchar | hchar) | hchar
    · exact Or.inl (hdigits _ hchar)
    · exact Or.inr hchar
    · exact Or.inl (hdigits _ hchar)
    · exact Or.inl (hdigits _ hchar)
  perSecond _ _ _ htext := by simp [markdown] at htext
  table := isTable_markdownTable

/-- A reply that quotes both markers, behind an unload and a load. -/
def quotingReply : Reply ℕ where
  oldModelName := some "parrot".toList
  modelName := "TinyLlama".toList
  loading := some (some 152)
  texts := ["see ##### BurnLM".toList, " Stats, then ##### Model Reply".toList]
  stats := [.named "Finish Reason".toList "Stop".toList, .tokensCount 12, .totalDuration 205]

theorem cleanup_chunks_quoting :
    (Message.mk (quotingReply.chunks markdown).flatten).cleanup replyMarker statsMarker =
      some ⟨['\n'] ++ quotingReply.texts.flatten ++ ['\n', '\n', '\n']⟩ := by
  refine cleanup_chunks markdown_lawful (fun name hname => ?_) (by decide +kernel)
    fun name value hstat => ?_
  · obtain rfl : "parrot".toList = name := Option.some.inj hname
    decide +kernel
  · obtain ⟨rfl, rfl⟩ : name = "Finish Reason".toList ∧ value = "Stop".toList := by
      simpa [quotingReply] using hstat
    decide +kernel

end BurnLm.Http
