/-
Request parsing is the inverse of what clients write: `Written` is what a
client may send for a request, each line ended by a LF or not, and parsing
gives that request back (`parseRequest_inverts`). A body that ends before the
flush of its section is no request.

A payload with its LF is at most `MAX_DATA_LEN` bytes, a ref name is not empty
and an id is not the all-zero one: otherwise the request is refused or comes
back as another (`parseRequest_exceptions`).
-/
import Miscreant.Requests
import Miscreant.ReceivePackFacts
import Mathlib.Data.List.Perm.Basic

namespace Miscreant

open Lib ReceivePack

/-! ## Lines -/

/-- A payload, and whether a LF is written after it. -/
structure Line where
  payload : Bytes
  lf : Bool

def Line.bytes (l : Line) : Bytes := if l.lf then l.payload ++ [10] else l.payload

def Line.packet (l : Line) : Pktline.PacketLine := .data l.bytes

/-- A line that can be written: it fits with its LF, which is the only one at
its end. -/
structure Line.Writable (l : Line) : Prop where
  fits : Pktline.Fits l.bytes
  noLf : l.payload.getLast? ≠ some 10

theorem Line.writable_iff {l : Line} :
    l.Writable ↔ (l.bytes ≠ [] ∧ l.bytes.length ≤ Pktline.MAX_DATA_LEN) ∧ l.payload.getLast? ≠ some 10 :=
  ⟨fun h => ⟨h.fits, h.noLf⟩, fun h => ⟨h.1, h.2⟩⟩

instance (l : Line) : Decidable l.Writable := decidable_of_iff' _ Line.writable_iff

theorem Line.Writable.stripLf {l : Line} (h : l.Writable) : stripLf l.bytes = l.payload := by
  unfold ReceivePack.stripLf Line.bytes
  cases l.lf with
  | false => exact if_neg h.noLf
  | true => simp

theorem Line.Writable.packet {l : Line} (h : l.Writable) : l.packet.Fits ∧ l.packet ≠ .flush := ⟨h.fits, nofun⟩

theorem packets_writable {lines : List Line} (h : ∀ l ∈ lines, l.Writable) :
    ∀ p ∈ lines.map Line.packet, p.Fits ∧ p ≠ .flush := by
  intro p hp
  obtain ⟨l, hl, rfl⟩ := List.mem_map.1 hp
  exact (h l hl).packet

theorem stripPrefix_eq_some {lead text rest : List Char} (h : stripPrefix lead text = some rest) :
    text = lead ++ rest := by
  unfold stripPrefix at h
  split at h
  · rename_i hlead
    cases h
    obtain ⟨rest, rfl⟩ := List.isPrefixOf_iff_prefix.1 hlead
    rw [List.drop_left]
  · cases h

theorem stripPrefix_eq_none {lead text : List Char} : stripPrefix lead text = none ↔ ¬ lead <+: text := by
  rw [stripPrefix, ← List.isPrefixOf_iff_prefix]
  split <;> simp_all

namespace UploadPack

/-! ## Protocol v2 -/

/-- What a client may send for a request: the lines before the delimiter in
any order, and a delimiter at least where there are arguments. -/
structure Written (request : Request) where
  others : List String
  texts : List String
  head : List Line
  delimited : Bool
  args : List Line
  noCommand : ∀ text ∈ others, ¬ COMMAND <+: text.toList
  noFormat : ∀ text ∈ others, ¬ OBJECT_FORMAT <+: text.toList
  perm : texts.Perm
    (("command=" ++ request.command) :: (request.objectFormat.toList.map ("object-format=" ++ ·) ++ others))
  head_texts : head.map Line.payload = texts.map asBytes
  args_texts : args.map Line.payload = request.args.map asBytes
  undelimited : delimited = false → args = []
  writable : ∀ l ∈ head ++ args, l.Writable

variable {request : Request}

def Written.packets (w : Written request) : List Pktline.PacketLine :=
  w.head.map Line.packet ++ ((if w.delimited then [.delimiter] else []) ++ w.args.map Line.packet)

/-- The section up to and with its flush. -/
def Written.framed (w : Written request) : Bytes :=
  Pktline.encodeAll w.packets ++ Pktline.encode .flush

theorem Written.packets_fit (w : Written request) : ∀ p ∈ w.packets, p.Fits ∧ p ≠ .flush := by
  intro p hp
  rcases List.mem_append.1 hp with hp | hp
  · exact packets_writable (fun l hl => w.writable l (by simp [hl])) p hp
  rcases List.mem_append.1 hp with hp | hp
  · cases hd : w.delimited with
    | false => simp [hd] at hp
    | true =>
      rw [hd, if_pos rfl, List.mem_singleton] at hp
      rw [hp]
      exact ⟨trivial, nofun⟩
  · exact packets_writable (fun l hl => w.writable l (by simp [hl])) p hp

/-- Lines are taken by their texts. -/
theorem foldlM_addLine : ∀ {lines : List Line} {texts : List String} (s : Parse), (∀ l ∈ lines, l.Writable) →
    lines.map Line.payload = texts.map asBytes →
    (lines.map Line.packet).foldlM Parse.addLine s = texts.foldlM Parse.addText s
  | [], texts, s, _, ht => by
    obtain rfl := List.map_eq_nil_iff.1 ht.symm
    rfl
  | l :: lines, [], s, _, ht => nomatch ht
  | l :: lines, text :: texts, s, h, ht => by
    rw [List.map_cons, List.map_cons, List.cons.injEq] at ht
    have hline : s.addLine l.packet = s.addText text := by
      rw [Line.packet, Parse.addLine, (h l (by simp)).stripLf, ht.1, fromUtf8_asBytes]
      rfl
    rw [List.map_cons, List.foldlM_cons, List.foldlM_cons, hline]
    cases s.addText text with
    | none => rfl
    | some s' => exact foldlM_addLine s' (fun l' hl' => h l' (by simp [hl'])) ht.2

/-- After the delimiter, texts are arguments. -/
theorem foldlM_addText_args : ∀ (texts : List String) {s : Parse}, s.inArgs = true →
    texts.foldlM Parse.addText s = some { s with args := s.args ++ texts }
  | [], s, _ => by simp
  | text :: texts, s, hs => by
    have htext : s.addText text = some { s with args := s.args ++ [text] } := if_pos hs
    rw [List.foldlM_cons, htext]
    refine (foldlM_addText_args texts (s := { s with args := s.args ++ [text] }) hs).trans ?_
    simp

/-- The value of a text line of a capability. -/
def valueOf (lead : List Char) (text : String) : Option String := (stripPrefix lead text.toList).map String.ofList

theorem valueOf_append (lead value : String) : valueOf lead.toList (lead ++ value) = some value := by
  rw [valueOf, String.toList_append, stripPrefix_append]
  simp

/-- Before the delimiter, a text line is a command, an object format or
neither. -/
theorem addText_head {s : Parse} (hs : s.inArgs = false) (text : String) :
    s.addText text =
      match valueOf COMMAND text with
      | some name => if s.command.isSome then none else some { s with command := some name }
      | none => some { s with objectFormat := (valueOf OBJECT_FORMAT text).or s.objectFormat } := by
  obtain ⟨command, objectFormat, args, inArgs⟩ := s
  subst hs
  rw [Parse.addText, if_neg Bool.false_ne_true, valueOf, valueOf]
  cases stripPrefix COMMAND text.toList with
  | some name => rfl
  | none => cases stripPrefix OBJECT_FORMAT text.toList <;> rfl

theorem valueOf_eq_none {lead : List Char} {text : String} : valueOf lead text = none ↔ ¬ lead <+: text.toList := by
  rw [valueOf, Option.map_eq_none_iff, stripPrefix_eq_none]

/-- A command is no object format. -/
theorem valueOf_format {text name : String} (h : valueOf COMMAND text = some name) : valueOf OBJECT_FORMAT text = none := by
  obtain ⟨rest, hrest, -⟩ := Option.map_eq_some_iff.1 h
  rw [valueOf_eq_none, stripPrefix_eq_some hrest]
  intro hprefix
  have hcommand : COMMAND = 'c' :: "ommand=".toList := rfl
  have hformat : OBJECT_FORMAT = 'o' :: "bject-format=".toList := rfl
  rw [hcommand, hformat, List.cons_append, List.cons_prefix_cons] at hprefix
  exact absurd hprefix.1 (by decide)

/-- Before the delimiter there is at most one command, and the last object
format counts. -/
theorem foldlM_addText_head : ∀ (texts : List String) {s : Parse}, s.inArgs = false →
    s.command.toList.length + (texts.filterMap (valueOf COMMAND)).length ≤ 1 →
    texts.foldlM Parse.addText s = some { s with
      command := s.command.or (texts.filterMap (valueOf COMMAND)).head?
      objectFormat := (texts.filterMap (valueOf OBJECT_FORMAT)).foldl (fun _ format => some format) s.objectFormat }
  | [], s, _, _ => by simp
  | text :: texts, s, hs, hle => by
    rw [List.foldlM_cons, addText_head hs]
    cases hcommand : valueOf COMMAND text with
    | some name =>
      rw [List.filterMap_cons_some hcommand, List.length_cons] at hle
      have hnone : s.command = none := by
        cases hc : s.command with
        | none => rfl
        | some c =>
          rw [hc, Option.toList_some, List.length_singleton] at hle
          omega
      have hnil : texts.filterMap (valueOf COMMAND) = [] := List.length_eq_zero_iff.1 (by omega)
      have hrest := foldlM_addText_head texts (s := { s with command := some name }) hs (by simp [hnil])
      rw [List.filterMap_cons_some hcommand, List.filterMap_cons_none (valueOf_format hcommand), hnone]
      exact hrest
    | none =>
      rw [List.filterMap_cons_none hcommand] at hle ⊢
      refine (foldlM_addText_head texts
        (s := { s with objectFormat := (valueOf OBJECT_FORMAT text).or s.objectFormat }) hs hle).trans ?_
      cases hformat : valueOf OBJECT_FORMAT text with
      | none => rw [List.filterMap_cons_none hformat]; rfl
      | some format => rw [List.filterMap_cons_some hformat]; rfl

theorem Written.commands (w : Written request) : w.texts.filterMap (valueOf COMMAND) = [request.command] := by
  have hothers : w.others.filterMap (valueOf COMMAND) = [] :=
    List.filterMap_eq_nil_iff.2 fun text htext => valueOf_eq_none.2 (w.noCommand text htext)
  have hformat : (request.objectFormat.toList.map ("object-format=" ++ ·)).filterMap (valueOf COMMAND) = [] := by
    refine List.filterMap_eq_nil_iff.2 fun text htext => ?_
    obtain ⟨format, -, rfl⟩ := List.mem_map.1 htext
    cases hcommand : valueOf COMMAND ("object-format=" ++ format) with
    | none => rfl
    | some name => exact absurd ((valueOf_append "object-format=" format).symm.trans (valueOf_format hcommand)) nofun
  have hperm := w.perm.filterMap (valueOf COMMAND)
  have hcommand : valueOf COMMAND ("command=" ++ request.command) = some request.command := valueOf_append ..
  rw [List.filterMap_cons_some hcommand, List.filterMap_append, hformat, hothers] at hperm
  exact List.perm_singleton.1 hperm

theorem Written.formats (w : Written request) :
    w.texts.filterMap (valueOf OBJECT_FORMAT) = request.objectFormat.toList := by
  have hothers : w.others.filterMap (valueOf OBJECT_FORMAT) = [] :=
    List.filterMap_eq_nil_iff.2 fun text htext => valueOf_eq_none.2 (w.noFormat text htext)
  have hcommand : valueOf OBJECT_FORMAT ("command=" ++ request.command) = none := valueOf_format (valueOf_append ..)
  have hperm := w.perm.filterMap (valueOf OBJECT_FORMAT)
  rw [List.filterMap_cons_none hcommand, List.filterMap_append, hothers, List.append_nil] at hperm
  have hformat : ∀ format : String, valueOf OBJECT_FORMAT ("object-format=" ++ format) = some format :=
    fun format => valueOf_append ..
  cases hrequest : request.objectFormat with
  | none =>
    rw [hrequest] at hperm
    exact List.perm_nil.1 hperm
  | some format =>
    rw [hrequest, Option.toList_some, List.map_singleton, List.filterMap_cons_some (hformat format)] at hperm
    exact List.perm_singleton.1 hperm

/-- The packets before the flush give the request. -/
theorem Written.foldlM_packets (w : Written request) :
    w.packets.foldlM Parse.addLine ⟨none, none, [], false⟩ =
      some ⟨some request.command, request.objectFormat, request.args, w.delimited⟩ := by
  have hhead : (w.head.map Line.packet).foldlM Parse.addLine ⟨none, none, [], false⟩ =
      some ⟨some request.command, request.objectFormat, [], false⟩ := by
    rw [foldlM_addLine _ (fun l hl => w.writable l (by simp [hl])) w.head_texts,
      foldlM_addText_head w.texts rfl (by simp [w.commands]), w.commands, w.formats]
    cases request.objectFormat <;> rfl
  rw [Written.packets, List.foldlM_append, hhead, Option.bind_eq_bind, Option.bind_some, List.foldlM_append]
  cases hd : w.delimited with
  | false =>
    have hnil := w.undelimited hd
    have hargs := w.args_texts
    rw [hnil, List.map_nil, eq_comm, List.map_eq_nil_iff] at hargs
    rw [hnil, hargs]
    rfl
  | true =>
    have hargs := foldlM_addLine ⟨some request.command, request.objectFormat, [], true⟩
      (fun l hl => w.writable l (by simp [hl])) w.args_texts
    rw [foldlM_addText_args _ rfl, List.nil_append] at hargs
    exact hargs

theorem parseRequest_written (w : Written request) (rest : Bytes) : parseRequest (w.framed ++ rest) = some request := by
  have hfold := Pktline.foldPackets_encoded Parse.addLine rest ⟨none, none, [], false⟩ w.packets_fit
    (Pktline.length_lt_section w.packets rest)
  rw [w.foldlM_packets] at hfold
  rw [parseRequest, Written.framed, List.append_assoc] at *
  rw [hfold]
  rfl

theorem parseRequest_truncated (w : Written request) {cut : Bytes} (hcut : cut <+: w.framed) (hne : cut ≠ w.framed) :
    parseRequest cut = none := by
  rw [parseRequest, Pktline.foldPackets_truncated _ _ w.packets_fit hcut hne]
  rfl

end UploadPack

namespace ReceivePack

/-! ## Pushes -/

/-- A capability's name, up to a `=`. -/
def tokenName (token : Bytes) : Bytes := token.takeWhile (· ≠ 61)

/-- The capabilities a list of tokens asks for. -/
def capsOf (tokens : List Bytes) : Caps :=
  ⟨decide (asBytes "report-status" ∈ tokens.map tokenName), decide (asBytes "side-band-64k" ∈ tokens.map tokenName)⟩

/-- What stands after the first command. -/
def capsBytes : Option (List Bytes) → Bytes
  | none => []
  | some tokens => 0 :: [32].intercalate tokens

/-- The payloads of the command lines: the first has the capabilities. -/
def payloads (zero : HashKind) : List Command → Option (List Bytes) → List Bytes
  | [], _ => []
  | cmd :: cmds, tokens => (asBytes (cmd.textIn zero) ++ capsBytes tokens) :: cmds.map fun cmd => asBytes (cmd.textIn zero)

/-- What a client may send for a push. -/
structure Written (request : Request) where
  zero : HashKind
  tokens : Option (List Bytes)
  lines : List Line
  commands_ne : request.commands ≠ []
  commands : ∀ cmd ∈ request.commands, cmd.Writable
  noSpace : ∀ ts, tokens = some ts → ∀ token ∈ ts, (32 : UInt8) ∉ token
  caps : request.caps = capsOf (tokens.getD [])
  lines_payloads : lines.map Line.payload = payloads zero request.commands tokens
  writable : ∀ l ∈ lines, l.Writable

variable {request : Request}

/-- The section up to and with its flush. -/
def Written.framed (w : Written request) : Bytes :=
  Pktline.encodeAll (w.lines.map Line.packet) ++ Pktline.encode .flush

/-- The turn of the loop of `parse_request` at a line. -/
def addLine : Bool × Caps × List Command → Pktline.PacketLine → Option (Bool × Caps × List Command)
  | (first, caps, commands), .data data =>
    (parseCommand data).map fun (command, lineCaps) =>
      (false, if first then lineCaps.getD caps else caps, commands ++ [command])
  | _, _ => none

/-- The loop is a fold over the packets. -/
theorem parseRequestFrom_eq : ∀ (fuel : Nat) (body : Bytes) (first : Bool) (caps : Caps) (commands : List Command),
    parseRequestFrom fuel body first caps commands =
      (Pktline.foldPackets addLine fuel body (first, caps, commands)).map fun ((_, caps, commands), rest) =>
        ⟨commands, caps, rest⟩
  | 0, _, _, _, _ => rfl
  | fuel + 1, body, first, caps, commands => by
    rw [parseRequestFrom, Pktline.foldPackets]
    cases hline : Pktline.streaming body with
    | error e => rfl
    | ok s =>
      cases s with
      | incomplete needed => rfl
      | complete line consumed =>
        cases line with
        | flush | delimiter | responseEnd => rfl
        | data data =>
          simp only [addLine]
          cases parseCommand data with
          | none => rfl
          | some c =>
            exact parseRequestFrom_eq fuel _ false _ _

/-- One token sets the flag it names. -/
theorem addToken_eq (caps : Caps) (token : Bytes) :
    caps.addToken token =
      ⟨decide (tokenName token = asBytes "report-status") || caps.reportStatus,
        decide (tokenName token = asBytes "side-band-64k") || caps.sideBand64k⟩ := by
  have hne : asBytes "report-status" ≠ asBytes "side-band-64k" := asBytes_injective.ne (by decide)
  show (if tokenName token = asBytes "report-status" then _
    else if tokenName token = asBytes "side-band-64k" then _ else caps) = _
  split
  · rename_i hname
    simp [hname, hne]
  · rename_i hname
    split
    · rename_i hname'
      simp [hname', hne.symm]
    · rename_i hname'
      simp [hname, hname']

theorem foldl_addToken : ∀ (tokens : List Bytes) (caps : Caps), tokens.foldl Caps.addToken caps =
    ⟨(capsOf tokens).reportStatus || caps.reportStatus, (capsOf tokens).sideBand64k || caps.sideBand64k⟩
  | [], caps => rfl
  | token :: tokens, caps => by
    rw [List.foldl_cons, foldl_addToken tokens, addToken_eq]
    simp only [capsOf, List.map_cons, List.mem_cons, Bool.decide_or, eq_comm (a := tokenName token), Caps.mk.injEq]
    constructor <;> rw [← Bool.or_assoc, Bool.or_comm (decide _)]

/-- The tokens of a capability list. -/
theorem parseCaps_written {tokens : List Bytes} (h : ∀ token ∈ tokens, (32 : UInt8) ∉ token) :
    parseCaps ([32].intercalate tokens) = capsOf tokens := by
  cases tokens with
  | nil => decide
  | cons token tokens =>
    rw [parseCaps, List.splitOn_intercalate 32 h (List.cons_ne_nil _ _), foldl_addToken]
    simp [Caps.none]

/-- A command's line, with or without capabilities. -/
theorem parseCommand_line {l : Line} (hl : l.Writable) {cmd : Command} (hcmd : cmd.Writable) {zero : HashKind}
    {tokens : Option (List Bytes)} (htokens : ∀ ts, tokens = some ts → ∀ token ∈ ts, (32 : UInt8) ∉ token)
    (hpayload : l.payload = asBytes (cmd.textIn zero) ++ capsBytes tokens) :
    parseCommand l.bytes = some (cmd, tokens.map capsOf) := by
  have hnul := nul_not_mem_textIn zero hcmd.noNul
  have hsplit : splitCaps l.payload = (asBytes (cmd.textIn zero), tokens.map capsOf) := by
    rw [hpayload]
    cases tokens with
    | none =>
      rw [capsBytes, List.append_nil, splitCaps_plain hnul]
      rfl
    | some ts =>
      rw [capsBytes, splitCaps_nul hnul, parseCaps_written (htokens ts rfl)]
      rfl
  rw [parseCommand, hl.stripLf, hsplit]
  simp only [Option.bind_eq_bind, fromUtf8_asBytes, Option.bind_some, parseFields_textIn zero hcmd, Option.pure_def]

/-- The lines after the first add their commands. -/
theorem foldlM_addLine {zero : HashKind} (caps : Caps) : ∀ {lines : List Line} {cmds : List Command}
    (commands : List Command), (∀ l ∈ lines, l.Writable) → (∀ cmd ∈ cmds, cmd.Writable) →
    lines.map Line.payload = cmds.map (fun cmd => asBytes (cmd.textIn zero)) →
    (lines.map Line.packet).foldlM addLine (false, caps, commands) = some (false, caps, commands ++ cmds)
  | [], cmds, commands, _, _, hp => by
    obtain rfl := List.map_eq_nil_iff.1 hp.symm
    simp
  | l :: lines, [], _, _, _, hp => nomatch hp
  | l :: lines, cmd :: cmds, commands, hl, hc, hp => by
    rw [List.map_cons, List.map_cons, List.cons.injEq] at hp
    have hpayload : l.payload = asBytes (cmd.textIn zero) ++ capsBytes none := by rw [hp.1, capsBytes, List.append_nil]
    have hnone : ∀ ts : List Bytes, none = some ts → ∀ token ∈ ts, (32 : UInt8) ∉ token := nofun
    have hline : addLine (false, caps, commands) l.packet = some (false, caps, commands ++ [cmd]) := by
      rw [Line.packet, addLine, parseCommand_line (hl l (by simp)) (hc cmd (by simp)) hnone hpayload]
      rfl
    rw [List.map_cons, List.foldlM_cons, hline]
    refine (foldlM_addLine caps (commands ++ [cmd]) (fun l' hl' => hl l' (by simp [hl']))
      (fun c hc' => hc c (by simp [hc'])) hp.2).trans ?_
    rw [List.append_assoc, List.singleton_append]

/-- The packets before the flush give the commands and the capabilities. -/
theorem Written.foldlM_packets (w : Written request) :
    (w.lines.map Line.packet).foldlM addLine (true, .none, []) = some (false, request.caps, request.commands) := by
  have hpayloads := w.lines_payloads
  have hcommands := w.commands
  cases hrequest : request.commands with
  | nil => exact absurd hrequest w.commands_ne
  | cons cmd cmds =>
    rw [hrequest] at hpayloads hcommands
    cases hlines : w.lines with
    | nil =>
      rw [hlines] at hpayloads
      exact nomatch hpayloads
    | cons l lines =>
      have hwritable := w.writable
      rw [hlines] at hpayloads hwritable
      rw [List.map_cons, payloads, List.cons.injEq] at hpayloads
      have hcaps : (w.tokens.map capsOf).getD .none = request.caps := by
        rw [w.caps]
        cases w.tokens <;> rfl
      have hline : addLine (true, .none, []) l.packet = some (false, request.caps, [cmd]) := by
        rw [Line.packet, addLine, parseCommand_line (hwritable l (by simp)) (hcommands cmd (by simp)) w.noSpace
          hpayloads.1, ← hcaps]
        rfl
      rw [List.map_cons, List.foldlM_cons, hline]
      exact foldlM_addLine request.caps [cmd] (fun l' hl' => hwritable l' (by simp [hl']))
        (fun c hc => hcommands c (by simp [hc])) hpayloads.2

theorem parseRequest_section (w : Written request) : parseRequest (w.framed ++ request.pack) = some request := by
  have hfold := Pktline.foldPackets_encoded addLine request.pack (true, .none, [])
    (packets_writable w.writable) (Pktline.length_lt_section (w.lines.map Line.packet) request.pack)
  rw [w.foldlM_packets] at hfold
  rw [parseRequest, parseRequestFrom_eq, Written.framed, List.append_assoc] at *
  rw [hfold]
  rfl

theorem parseRequest_truncated (w : Written request) {cut : Bytes} (hcut : cut <+: w.framed) (hne : cut ≠ w.framed) :
    parseRequest cut = none := by
  rw [parseRequest, parseRequestFrom_eq,
    Pktline.foldPackets_truncated _ _ (packets_writable w.writable) hcut hne]
  rfl

end ReceivePack

namespace UploadPackV0

/-! ## Classic fetches -/

/-- A capability's name, up to a `=`. -/
def tokenName (token : String) : String := String.ofList (token.toList.takeWhile (· ≠ '='))

/-- The tokens ask for a capability. -/
def asksFor (tokens : List String) (name : String) : Bool := decide (name ∈ tokens.map tokenName)

/-- What stands after the id of the first want. -/
def capsText : Option (List String) → List Char
  | none => []
  | some tokens => ' ' :: [' '].intercalate (tokens.map String.toList)

/-- The texts of the want lines: the first has the capabilities. -/
def wantTexts : List ObjectId → Option (List String) → List String
  | [], _ => []
  | oid :: oids, tokens =>
    ("want " ++ oid.toHex ++ String.ofList (capsText tokens)) :: oids.map fun oid => "want " ++ oid.toHex

/-- What a client may send for a classic fetch: wants, and then groups of
haves with a flush before each, a `done` if there is one, and a flush or
none. -/
structure Written (request : FullRequest) where
  tokens : Option (List String)
  wants : List Line
  groups : List (List ObjectId)
  haves : List (List Line)
  doneLine : Option Line
  closing : Bool
  wants_ne : request.wants ≠ []
  noSpace : ∀ ts, tokens = some ts → ∀ token ∈ ts, ' ' ∉ token.toList
  sideBand64k : request.sideBand64k = asksFor (tokens.getD []) "side-band-64k"
  noProgress : request.noProgress = asksFor (tokens.getD []) "no-progress"
  multiAckDetailed : request.multiAckDetailed = asksFor (tokens.getD []) "multi_ack_detailed"
  ofsDelta : request.ofsDelta = asksFor (tokens.getD []) "ofs-delta"
  wants_payloads : wants.map Line.payload = (wantTexts request.wants tokens).map asBytes
  groups_haves : groups.flatten = request.haves
  haves_payloads : haves.map (·.map Line.payload) = groups.map (·.map fun oid => asBytes ("have " ++ oid.toHex))
  done_payload : doneLine.map Line.payload = if request.done then some (asBytes "done") else none
  writable : ∀ l ∈ wants ++ haves.flatten ++ doneLine.toList, l.Writable

variable {request : FullRequest}

/-- A group of haves, with the flush before it. -/
def group (lines : List Line) : List Pktline.PacketLine := .flush :: lines.map Line.packet

def Written.body (w : Written request) : Bytes :=
  Pktline.encodeAll (w.wants.map Line.packet ++ w.haves.flatMap group ++ w.doneLine.toList.map Line.packet ++
    (if w.closing then [.flush] else []))

/-- One token sets the flag it names. -/
theorem addToken_eq (request : FullRequest) (token : String) :
    request.addToken token.toList = { request with
      sideBand64k := asksFor [token] "side-band-64k" || request.sideBand64k
      noProgress := asksFor [token] "no-progress" || request.noProgress
      multiAckDetailed := asksFor [token] "multi_ack_detailed" || request.multiAckDetailed
      ofsDelta := asksFor [token] "ofs-delta" || request.ofsDelta } := by
  have hone : ∀ name, asksFor [token] name = decide (name = tokenName token) := by
    intro name
    simp [asksFor]
  show (if tokenName token = "side-band-64k" then _
    else if tokenName token = "no-progress" then _
    else if tokenName token = "multi_ack_detailed" then _
    else if tokenName token = "ofs-delta" then _ else request) = _
  simp only [hone]
  split
  · rename_i hname
    simp [hname]
  split
  · rename_i hname
    simp [hname]
  split
  · rename_i hname
    simp [hname]
  split
  · rename_i hname
    simp [hname]
  · rename_i hside hprogress hmulti hofs
    simp [Ne.symm hside, Ne.symm hprogress, Ne.symm hmulti, Ne.symm hofs]

theorem asksFor_cons (token : String) (tokens : List String) (name : String) (b : Bool) :
    (asksFor tokens name || (asksFor [token] name || b)) = (asksFor (token :: tokens) name || b) := by
  simp only [asksFor, List.map_cons, List.map_nil, List.mem_cons, List.not_mem_nil, or_false, Bool.decide_or]
  rw [← Bool.or_assoc, Bool.or_comm (decide (name ∈ _))]

theorem foldl_addToken : ∀ (tokens : List String) (request : FullRequest),
    (tokens.map String.toList).foldl FullRequest.addToken request = { request with
      sideBand64k := asksFor tokens "side-band-64k" || request.sideBand64k
      noProgress := asksFor tokens "no-progress" || request.noProgress
      multiAckDetailed := asksFor tokens "multi_ack_detailed" || request.multiAckDetailed
      ofsDelta := asksFor tokens "ofs-delta" || request.ofsDelta }
  | [], request => rfl
  | token :: tokens, request => by
    rw [List.map_cons, List.foldl_cons, foldl_addToken tokens, addToken_eq]
    simp only [asksFor_cons]

theorem parseCaps_written {tokens : List String} (h : ∀ token ∈ tokens, ' ' ∉ token.toList) (request : FullRequest) :
    parseCaps ([' '].intercalate (tokens.map String.toList)) request = { request with
      sideBand64k := asksFor tokens "side-band-64k" || request.sideBand64k
      noProgress := asksFor tokens "no-progress" || request.noProgress
      multiAckDetailed := asksFor tokens "multi_ack_detailed" || request.multiAckDetailed
      ofsDelta := asksFor tokens "ofs-delta" || request.ofsDelta } := by
  cases tokens with
  | nil => rfl
  | cons token tokens =>
    have hspace : ∀ l ∈ (token :: tokens).map String.toList, ' ' ∉ l := by
      intro l hl
      obtain ⟨t, ht, rfl⟩ := List.mem_map.1 hl
      exact h t ht
    rw [parseCaps, List.splitOn_intercalate ' ' hspace (by simp), foldl_addToken]

theorem parseHex_toHex (oid : ObjectId) : parseHex oid.toHex.toList = .ok oid := by
  rw [parseHex, String.ofList_toList, ObjectId.fromHex_toHex]

theorem splitAtSpace_eq_none {text : List Char} (h : ' ' ∉ text) : splitAtSpace text = none := by
  have hnil : text.dropWhile (fun c => decide (c ≠ ' ')) = [] := by
    rw [List.dropWhile_eq_nil_iff]
    intro c hc
    have hne : c ≠ ' ' := fun heq => h (heq ▸ hc)
    simpa using hne
  rw [splitAtSpace, hnil]

/-- A want line, with or without capabilities. -/
theorem addText_want (first : Bool) (request : FullRequest) (oid : ObjectId) {tokens : Option (List String)}
    (h : ∀ ts, tokens = some ts → ∀ token ∈ ts, ' ' ∉ token.toList) (hlater : first = false → tokens = none) :
    addText first request ("want " ++ oid.toHex ++ String.ofList (capsText tokens)) = .ok (false, { request with
      wants := request.wants ++ [oid]
      sideBand64k := asksFor (tokens.getD []) "side-band-64k" || request.sideBand64k
      noProgress := asksFor (tokens.getD []) "no-progress" || request.noProgress
      multiAckDetailed := asksFor (tokens.getD []) "multi_ack_detailed" || request.multiAckDetailed
      ofsDelta := asksFor (tokens.getD []) "ofs-delta" || request.ofsDelta }) := by
  have htext : stripPrefix WANT ("want " ++ oid.toHex ++ String.ofList (capsText tokens)).toList =
      some (oid.toHex.toList ++ capsText tokens) := by
    have hcaps : (String.ofList (capsText tokens)).toList = capsText tokens := String.toList_ofList
    rw [String.toList_append, String.toList_append, hcaps, List.append_assoc]
    exact stripPrefix_append WANT _
  rw [addText, htext]
  cases tokens with
  | none =>
    simp only [capsText, List.append_nil, splitAtSpace_eq_none (ObjectId.space_not_mem_toHex oid), parseHex_toHex]
    cases first <;> rfl
  | some ts =>
    have hfirst : first = true := by
      cases first with
      | true => rfl
      | false => exact nomatch hlater rfl
    subst hfirst
    simp only [capsText, splitAtSpace_append (ObjectId.space_not_mem_toHex oid), parseHex_toHex]
    exact congrArg (fun r => Except.ok (false, r)) (parseCaps_written (h ts rfl) _)

/-- A want line after the first. -/
theorem addText_laterWant (request : FullRequest) (oid : ObjectId) :
    addText false request ("want " ++ oid.toHex) = .ok (false, { request with wants := request.wants ++ [oid] }) := by
  have hnone : ∀ ts : List String, none = some ts → ∀ token ∈ ts, ' ' ∉ token.toList := nofun
  have hwant := addText_want false request oid hnone fun _ => rfl
  have htext : "want " ++ oid.toHex ++ String.ofList (capsText none) = "want " ++ oid.toHex := by simp [capsText]
  rw [htext] at hwant
  exact hwant

theorem addText_have (first : Bool) (request : FullRequest) (oid : ObjectId) :
    addText first request ("have " ++ oid.toHex) = .ok (first, { request with haves := request.haves ++ [oid] }) := by
  have hnone : stripPrefix WANT ("have " ++ oid.toHex).toList = none := by
    rw [stripPrefix_eq_none, String.toList_append]
    exact fun hprefix => absurd (List.cons_prefix_cons.1 hprefix).1 (by decide)
  have hsome : stripPrefix HAVE ("have " ++ oid.toHex).toList = some oid.toHex.toList := by
    rw [String.toList_append]
    exact stripPrefix_append ..
  rw [addText, hnone, hsome]
  simp only [parseHex_toHex]
  rfl

theorem append_ne_done {lead : String} {c : Char} {cs : List Char} (h : lead.toList = c :: cs) (hc : c ≠ 'd')
    (text : String) : lead ++ text ≠ "done" := by
  intro heq
  have hlist := congrArg String.toList heq
  rw [String.toList_append, h] at hlist
  exact hc (List.cons.inj hlist).1

theorem want_ne_done (text : String) : "want " ++ text ≠ "done" :=
  append_ne_done (show "want ".toList = 'w' :: "ant ".toList from rfl) (by decide) text

theorem have_ne_done (text : String) : "have " ++ text ≠ "done" :=
  append_ne_done (show "have ".toList = 'h' :: "ave ".toList from rfl) (by decide) text

/-! ### The loop -/

theorem parseRequestFrom_nil (fuel : Nat) (first : Bool) (request : FullRequest) :
    parseRequestFrom fuel [] first request = .ok request := by
  cases fuel <;> rfl

theorem encode_append_ne_nil (p : Pktline.PacketLine) (rest : Bytes) : Pktline.encode p ++ rest ≠ [] := by
  have hfour := Pktline.four_le_length_encode p
  exact List.append_ne_nil_of_left_ne_nil (List.ne_nil_of_length_pos (by omega)) rest

theorem parseRequestFrom_flush (fuel : Nat) (rest : Bytes) (first : Bool) (request : FullRequest) :
    parseRequestFrom (fuel + 1) (Pktline.encode .flush ++ rest) first request =
      parseRequestFrom fuel rest first request := by
  rw [parseRequestFrom, if_neg (encode_append_ne_nil _ _), Pktline.streaming_encode (p := .flush) trivial]
  simp only [List.drop_left]

theorem parseRequestFrom_line {l : Line} (hl : l.Writable) {text : String} (hpayload : l.payload = asBytes text)
    (hne : text ≠ "done") {first first' : Bool} {request request' : FullRequest}
    (h : addText first request text = .ok (first', request')) (fuel : Nat) (rest : Bytes) :
    parseRequestFrom (fuel + 1) (Pktline.encode l.packet ++ rest) first request =
      parseRequestFrom fuel rest first' request' := by
  rw [parseRequestFrom, if_neg (encode_append_ne_nil _ _), Pktline.streaming_encode hl.packet.1, Line.packet]
  simp only [hl.stripLf, hpayload, fromUtf8_asBytes, if_neg hne, h]
  rw [← Line.packet, List.drop_left]
  rfl

/-- A line in front of others. -/
theorem parseRequestFrom_lines {l : Line} (hl : l.Writable) {text : String} (hpayload : l.payload = asBytes text)
    (hne : text ≠ "done") {first first' : Bool} {request request' : FullRequest}
    (h : addText first request text = .ok (first', request')) (lines : List Line) (fuel : Nat) (rest : Bytes) :
    parseRequestFrom ((l :: lines).length + fuel) (Pktline.encodeAll ((l :: lines).map Line.packet) ++ rest) first
        request =
      parseRequestFrom (lines.length + fuel) (Pktline.encodeAll (lines.map Line.packet) ++ rest) first' request' := by
  have hlen : (l :: lines).length + fuel = lines.length + fuel + 1 := by
    rw [List.length_cons]
    omega
  rw [hlen, List.map_cons, Pktline.encodeAll_cons, List.append_assoc, parseRequestFrom_line hl hpayload hne h]

theorem parseRequestFrom_done {l : Line} (hl : l.Writable) (hpayload : l.payload = asBytes "done") (fuel : Nat)
    (rest : Bytes) (first : Bool) (request : FullRequest) :
    parseRequestFrom (fuel + 1) (Pktline.encode l.packet ++ rest) first request = .ok { request with done := true } := by
  rw [parseRequestFrom, if_neg (encode_append_ne_nil _ _), Pktline.streaming_encode hl.packet.1, Line.packet]
  simp only [hl.stripLf, hpayload, fromUtf8_asBytes, if_true]

/-- The want lines after the first. -/
theorem parseRequestFrom_wants (fuel : Nat) (rest : Bytes) : ∀ {lines : List Line} {oids : List ObjectId}
    (request : FullRequest), (∀ l ∈ lines, l.Writable) →
    lines.map Line.payload = (oids.map fun oid => "want " ++ oid.toHex).map asBytes →
    parseRequestFrom (lines.length + fuel) (Pktline.encodeAll (lines.map Line.packet) ++ rest) false request =
      parseRequestFrom fuel rest false { request with wants := request.wants ++ oids }
  | [], oids, request, _, hp => by
    rw [List.map_map] at hp
    obtain rfl := List.map_eq_nil_iff.1 hp.symm
    simp
  | l :: lines, [], _, _, hp => nomatch hp
  | l :: lines, oid :: oids, request, hl, hp => by
    simp only [List.map_cons, List.cons.injEq] at hp
    rw [parseRequestFrom_lines (hl l (by simp)) hp.1 (want_ne_done _) (addText_laterWant request oid),
      parseRequestFrom_wants fuel rest _ (fun l' hl' => hl l' (by simp [hl'])) hp.2]
    simp

/-- A group of haves. -/
theorem parseRequestFrom_haves (fuel : Nat) (rest : Bytes) (first : Bool) : ∀ {lines : List Line}
    {oids : List ObjectId} (request : FullRequest), (∀ l ∈ lines, l.Writable) →
    lines.map Line.payload = oids.map (fun oid => asBytes ("have " ++ oid.toHex)) →
    parseRequestFrom (lines.length + fuel) (Pktline.encodeAll (lines.map Line.packet) ++ rest) first request =
      parseRequestFrom fuel rest first { request with haves := request.haves ++ oids }
  | [], oids, request, _, hp => by
    obtain rfl := List.map_eq_nil_iff.1 hp.symm
    simp
  | l :: lines, [], _, _, hp => nomatch hp
  | l :: lines, oid :: oids, request, hl, hp => by
    simp only [List.map_cons, List.cons.injEq] at hp
    rw [parseRequestFrom_lines (hl l (by simp)) hp.1 (have_ne_done _) (addText_have first request oid),
      parseRequestFrom_haves fuel rest first _ (fun l' hl' => hl l' (by simp [hl'])) hp.2]
    simp

/-- The groups, one after another. -/
theorem parseRequestFrom_groups (fuel : Nat) (rest : Bytes) (first : Bool) : ∀ {haves : List (List Line)}
    {groups : List (List ObjectId)} (request : FullRequest), (∀ l ∈ haves.flatten, l.Writable) →
    haves.map (·.map Line.payload) = groups.map (·.map fun oid => asBytes ("have " ++ oid.toHex)) →
    parseRequestFrom ((haves.flatMap group).length + fuel) (Pktline.encodeAll (haves.flatMap group) ++ rest) first
        request =
      parseRequestFrom fuel rest first { request with haves := request.haves ++ groups.flatten }
  | [], groups, request, _, hp => by
    obtain rfl := List.map_eq_nil_iff.1 hp.symm
    simp
  | lines :: haves, [], _, _, hp => nomatch hp
  | lines :: haves, oids :: groups, request, hl, hp => by
    simp only [List.map_cons, List.cons.injEq] at hp
    have hlen : ((lines :: haves).flatMap group).length + fuel =
        lines.length + ((haves.flatMap group).length + fuel) + 1 := by
      rw [List.flatMap_cons, List.length_append, group, List.length_cons, List.length_map]
      omega
    rw [hlen, List.flatMap_cons, group, List.cons_append, Pktline.encodeAll_cons, Pktline.encodeAll_append,
      List.append_assoc, List.append_assoc, parseRequestFrom_flush,
      parseRequestFrom_haves _ _ first request (fun l hl' => hl l (by simp [hl'])) hp.1,
      parseRequestFrom_groups fuel rest first _ (fun l hl' => hl l (List.mem_append_right _ hl')) hp.2]
    simp

/-- A `done` or none, a flush or none, and the end. -/
theorem parseRequestFrom_end {doneLine : Option Line} (hwritable : ∀ l ∈ doneLine.toList, l.Writable) {done : Bool}
    (hdone : doneLine.map Line.payload = if done then some (asBytes "done") else none) (closing : Bool) (fuel : Nat)
    (first : Bool) (request : FullRequest) (hrequest : request.done = false) :
    parseRequestFrom (doneLine.toList.length + (closing.toNat + fuel))
        (Pktline.encodeAll (doneLine.toList.map Line.packet) ++ Pktline.encodeAll (if closing then [.flush] else [])) first
        request = .ok { request with done := done } := by
  cases doneLine with
  | some l =>
    cases done with
    | false => exact nomatch hdone
    | true =>
      have hlen : (some l).toList.length + (closing.toNat + fuel) = closing.toNat + fuel + 1 := by
        rw [Option.toList_some, List.length_singleton]
        omega
      rw [hlen, Option.toList_some, List.map_singleton, Pktline.encodeAll_cons, List.append_assoc]
      exact parseRequestFrom_done (hwritable l (by simp)) (Option.some.inj hdone) ..
  | none =>
    cases done with
    | true => exact nomatch hdone
    | false =>
      have heq : { request with done := false } = request := by
        rw [← hrequest]
      rw [heq]
      cases closing with
      | false => exact parseRequestFrom_nil ..
      | true =>
        have hlen : (none : Option Line).toList.length + (Bool.toNat true + fuel) = fuel + 1 := by
          simp [Nat.add_comm]
        rw [hlen]
        exact (parseRequestFrom_flush fuel [] first request).trans (parseRequestFrom_nil ..)

/-- The first want line gives the capabilities, and the others follow it. -/
theorem Written.wants_lines (w : Written request) (fuel : Nat) (rest : Bytes) :
    parseRequestFrom (w.wants.length + fuel) (Pktline.encodeAll (w.wants.map Line.packet) ++ rest) true .none =
      parseRequestFrom fuel rest false { request with haves := [], done := false } := by
  have hpayloads := w.wants_payloads
  have hwritable : ∀ l ∈ w.wants, l.Writable := fun l hl => w.writable l (by simp [hl])
  cases hrequest : request.wants with
  | nil => exact absurd hrequest w.wants_ne
  | cons oid oids =>
    cases hlines : w.wants with
    | nil =>
      rw [hrequest, hlines] at hpayloads
      exact nomatch hpayloads
    | cons l lines =>
      rw [hlines] at hpayloads hwritable
      rw [hrequest] at hpayloads
      simp only [wantTexts, List.map_cons, List.cons.injEq] at hpayloads
      have hne : "want " ++ oid.toHex ++ String.ofList (capsText w.tokens) ≠ "done" := by
        rw [String.append_assoc]
        exact want_ne_done _
      have hwant := addText_want true .none oid w.noSpace nofun
      rw [parseRequestFrom_lines (hwritable l (by simp)) hpayloads.1 hne hwant,
        parseRequestFrom_wants fuel rest _ (fun l' hl' => hwritable l' (by simp [hl'])) hpayloads.2]
      simp [FullRequest.none, w.sideBand64k, w.noProgress, w.multiAckDetailed, w.ofsDelta]

theorem Written.wants_lines_ne (w : Written request) : w.wants ≠ [] := by
  intro hnil
  have hpayloads := w.wants_payloads
  rw [hnil, List.map_nil, eq_comm, List.map_eq_nil_iff] at hpayloads
  cases hrequest : request.wants with
  | nil => exact w.wants_ne hrequest
  | cons oid oids =>
    rw [hrequest] at hpayloads
    exact nomatch hpayloads

theorem parseRequest_body (w : Written request) : parseRequest w.body = .ok request := by
  have hne : w.body ≠ [] := by
    intro hnil
    have hlen := Pktline.length_le_encodeAll (w.wants.map Line.packet ++ w.haves.flatMap group ++
      w.doneLine.toList.map Line.packet ++ (if w.closing then [.flush] else []))
    rw [← Written.body, hnil] at hlen
    have hpos := List.length_pos_of_ne_nil w.wants_lines_ne
    simp only [List.length_append, List.length_map, List.length_nil] at hlen
    omega
  obtain ⟨fuel, hfuel⟩ : ∃ fuel, w.body.length = w.wants.length + ((w.haves.flatMap group).length +
      (w.doneLine.toList.length + (w.closing.toNat + fuel))) := by
    have hle := Pktline.length_le_encodeAll (w.wants.map Line.packet ++ w.haves.flatMap group ++
      w.doneLine.toList.map Line.packet ++ (if w.closing then [.flush] else []))
    have hclosing : (if w.closing then [Pktline.PacketLine.flush] else []).length = w.closing.toNat := by
      cases w.closing <;> rfl
    simp only [List.length_append, List.length_map, hclosing] at hle
    exact ⟨w.body.length - (w.wants.length + ((w.haves.flatMap group).length +
      (w.doneLine.toList.length + w.closing.toNat))), by rw [Written.body] at *; omega⟩
  have hhaves : ∀ l ∈ w.haves.flatten, l.Writable :=
    fun l hl => w.writable l (by simp only [List.mem_append, hl, or_true, true_or])
  have hdone : ∀ l ∈ w.doneLine.toList, l.Writable := fun l hl => w.writable l (List.mem_append_right _ hl)
  rw [parseRequest, if_neg hne, hfuel, Written.body, Pktline.encodeAll_append, Pktline.encodeAll_append,
    Pktline.encodeAll_append, List.append_assoc, List.append_assoc, w.wants_lines,
    parseRequestFrom_groups _ _ false _ hhaves w.haves_payloads,
    parseRequestFrom_end hdone w.done_payload w.closing fuel false _ rfl, w.groups_haves]
  rfl

end UploadPackV0

/-- **Request parsing inverts request encoding.** What a client writes for a
request is parsed as that request: a v2 request, whatever follows its flush, a
push with the pack after its flush, and a classic fetch. A v2 request or a
push cut short anywhere before the end of its flush is refused. -/
theorem parseRequest_inverts :
    (∀ (request : UploadPack.Request) (w : UploadPack.Written request),
      (∀ rest, UploadPack.parseRequest (w.framed ++ rest) = some request) ∧
      ∀ cut, cut <+: w.framed → cut ≠ w.framed → UploadPack.parseRequest cut = none) ∧
    (∀ (request : ReceivePack.Request) (w : ReceivePack.Written request),
      ReceivePack.parseRequest (w.framed ++ request.pack) = some request ∧
      ∀ cut, cut <+: w.framed → cut ≠ w.framed → ReceivePack.parseRequest cut = none) ∧
    ∀ (request : UploadPackV0.FullRequest) (w : UploadPackV0.Written request),
      UploadPackV0.parseRequest w.body = .ok request := by
  refine ⟨fun request w => ⟨fun rest => ?_, fun cut hcut hne => ?_⟩, fun request w => ⟨?_, fun cut hcut hne => ?_⟩,
    fun request w => ?_⟩
  · exact UploadPack.parseRequest_written w rest
  · exact UploadPack.parseRequest_truncated w hcut hne
  · exact ReceivePack.parseRequest_section w
  · exact ReceivePack.parseRequest_truncated w hcut hne
  · exact UploadPackV0.parseRequest_body w

namespace Sample

/-- Lines of texts, with a LF after each or after none. -/
def lines (lf : Bool) (texts : List String) : List Line := texts.map fun text => ⟨asBytes text, lf⟩

/-- A `fetch` whose first and last lines have a LF. -/
def fetchWritten : UploadPack.Written ⟨"fetch", some "sha1", ["done"]⟩ where
  others := ["agent=git"]
  texts := ["agent=git", "object-format=sha1", "command=fetch"]
  head := lines true ["agent=git"] ++ lines false ["object-format=sha1", "command=fetch"]
  delimited := true
  args := lines true ["done"]
  noCommand := by decide
  noFormat := by decide
  perm := by decide
  head_texts := rfl
  args_texts := rfl
  undelimited := nofun
  writable := by decide +kernel

/-- A deletion followed by bytes that look like a flush. -/
def deleteWritten : Written ⟨[deleteCommand], ⟨true, false⟩, Pktline.FLUSH_LINE⟩ where
  zero := .sha1
  tokens := some [asBytes "", asBytes "report-status", asBytes "agent=git"]
  lines := [⟨asBytes (deleteCommand.textIn .sha1) ++ asBytes "\x00 report-status agent=git", true⟩]
  commands_ne := List.cons_ne_nil _ _
  commands := by
    intro cmd hcmd
    rw [List.mem_singleton.1 hcmd]
    exact deleteCommand_writable
  noSpace := by decide
  caps := by decide
  lines_payloads := rfl
  writable := by decide +kernel

/-- A `done` after two groups of haves. -/
def doneWritten : UploadPackV0.Written ⟨⟨[tipId], [rootId, blobId], true, false⟩, true, false, false⟩ where
  tokens := some ["ofs-delta", "agent=git"]
  wants := [⟨asBytes ("want " ++ tipId.toHex ++ " ofs-delta agent=git"), true⟩]
  groups := [[rootId], [], [blobId]]
  haves := [[⟨asBytes ("have " ++ rootId.toHex), true⟩], [], [⟨asBytes ("have " ++ blobId.toHex), false⟩]]
  doneLine := some ⟨asBytes "done", true⟩
  closing := false
  wants_ne := List.cons_ne_nil _ _
  noSpace := by
    intro ts hts
    cases hts
    decide
  sideBand64k := by decide +kernel
  noProgress := by decide +kernel
  multiAckDetailed := by decide +kernel
  ofsDelta := by decide +kernel
  wants_payloads := rfl
  groups_haves := rfl
  haves_payloads := rfl
  done_payload := rfl
  writable := by decide +kernel

end Sample

/-- A request of each kind. -/
theorem parseRequest_inverts_sample :
    UploadPack.parseRequest (Sample.fetchWritten.framed ++ [0]) = some ⟨"fetch", some "sha1", ["done"]⟩ ∧
      UploadPack.parseRequest (Sample.fetchWritten.framed.take 4) = none ∧
      ReceivePack.parseRequest (Sample.deleteWritten.framed ++ Pktline.FLUSH_LINE) =
        some ⟨[Sample.deleteCommand], ⟨true, false⟩, Pktline.FLUSH_LINE⟩ ∧
      UploadPackV0.parseRequest Sample.doneWritten.body =
        .ok ⟨⟨[Sample.tipId], [Sample.rootId, Sample.blobId], true, false⟩, true, false, false⟩ := by
  obtain ⟨hfetch, hpush, hclassic⟩ := parseRequest_inverts
  obtain ⟨hwhole, hcut⟩ := hfetch _ Sample.fetchWritten
  have hne : Sample.fetchWritten.framed.take 4 ≠ Sample.fetchWritten.framed := by decide +kernel
  exact ⟨hwhole [0], hcut _ (List.take_prefix 4 _) hne, (hpush _ Sample.deleteWritten).1, hclassic _ Sample.doneWritten⟩

namespace ReceivePack

/-- A line that is no command is refused. -/
theorem parseRequest_refused {data : Bytes} (hfits : Pktline.Fits data) (h : parseCommand data = none) (rest : Bytes) :
    parseRequest (Pktline.encode (.data data) ++ rest) = none := by
  obtain ⟨fuel, hfuel⟩ : ∃ fuel, (Pktline.encode (.data data) ++ rest).length = fuel + 1 := by
    have hfour := Pktline.four_le_length_encode (.data data)
    exact ⟨_, (Nat.sub_add_cancel (by rw [List.length_append]; omega)).symm⟩
  rw [parseRequest, parseRequestFrom_eq, hfuel, Pktline.foldPackets_packet (p := .data data) hfits (by simp),
    addLine, h]
  rfl

/-- A command without a name is none. -/
theorem parseCommand_nameless {cmd : Command} (hname : cmd.name = "") {l : Line} (hl : l.Writable)
    (hpayload : l.payload = asBytes cmd.text) : parseCommand l.bytes = none := by
  have hnul : (0 : UInt8) ∉ asBytes cmd.text := nul_not_mem_textIn .sha1 (by rw [hname]; exact List.not_mem_nil)
  have hfields : parseFields cmd.text.toList = none := by
    refine (parseFields_eq .sha1 cmd).trans (if_pos ?_)
    rw [hname]
    rfl
  rw [parseCommand, hl.stripLf, hpayload, splitCaps_plain hnul]
  simp only [Option.bind_eq_bind, fromUtf8_asBytes, Option.bind_some, hfields, Option.bind_none]

end ReceivePack

/-- A command whose line takes `MAX_DATA_LEN` bytes. -/
def Sample.longCommand : String := "command=" ++ String.ofList (List.replicate 65508 'a')

theorem Sample.length_longCommand : (asBytes Sample.longCommand).length = Pktline.MAX_DATA_LEN := by
  have hchar : String.utf8EncodeChar 'a' = [97] := by decide
  have hlead : (asBytes "command=").length = 8 := by decide
  have hname : ∀ n, (asBytes (String.ofList (List.replicate n 'a'))).length = n := by
    intro n
    rw [asBytes_ofList]
    induction n with
    | zero => rfl
    | succ n ih =>
      rw [List.replicate_succ, List.flatMap_cons, List.length_append, ih, hchar, List.length_singleton, Nat.add_comm]
  rw [Sample.longCommand, asBytes_append, List.length_append, hlead, hname]
  rfl

/-- A payload of `MAX_DATA_LEN` bytes is refused with a LF after it, a ref
with an empty name is refused, and the all-zero id comes back as no id. -/
theorem parseRequest_exceptions :
    ((asBytes Sample.longCommand).length = Pktline.MAX_DATA_LEN ∧
      UploadPack.parseRequest (Pktline.line (asBytes Sample.longCommand ++ [10]) ++ Pktline.FLUSH_LINE) = none) ∧
    ReceivePack.parseRequest
      (Pktline.line (asBytes (Command.text ⟨some Sample.blobId, none, ""⟩)) ++ Pktline.FLUSH_LINE) = none ∧
    ReceivePack.parseRequest
      (Pktline.line (asBytes (Command.text ⟨some (Advertise.nullId .sha1), some Sample.blobId, "refs/heads/a"⟩) ++ [0]) ++
        (Pktline.FLUSH_LINE ++ [])) =
      some ⟨[⟨none, some Sample.blobId, "refs/heads/a"⟩], ⟨false, false⟩, []⟩ := by
  have hwritable : Command.Writable ⟨none, some Sample.blobId, "refs/heads/a"⟩ := by
    refine ⟨by decide, by decide, fun id h => (nomatch h), fun id h => ?_⟩
    cases h
    decide
  refine ⟨⟨Sample.length_longCommand, ?_⟩, ?_, ?_⟩
  · have hlen : (asBytes Sample.longCommand ++ [10]).length = Pktline.MAX_DATA_LEN + 1 := by
      rw [List.length_append, Sample.length_longCommand]
      rfl
    rw [UploadPack.parseRequest, Pktline.foldPackets_tooLong hlen]
    rfl
  · have hline : Line.Writable ⟨asBytes (Command.text ⟨some Sample.blobId, none, ""⟩), false⟩ := by decide +kernel
    exact ReceivePack.parseRequest_refused hline.fits (parseCommand_nameless rfl hline rfl) _
  · exact parseRequest_written hwritable (by decide) (by decide +kernel) []

end Miscreant
