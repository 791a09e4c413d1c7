import ManifestForm.CommandLine.Run
import ManifestForm.Proofs.Rpc.Requests
import ManifestForm.Proofs.Text.Lines
import ManifestForm.Proofs.Text.Utf8
import Mathlib.Data.List.Forall2

/-!
# Requests and their answers

Each text that a service is asked to answer has one line among those written,
at the same position. Whatever the request holds, the line stays a single one,
since no text that spells a value has a control character.
-/

namespace ManifestForm

namespace Rpc

variable {τ : Type}

section Requests

/-- The texts to answer: those of the lines before the first one that is not UTF-8, without the
blank ones. -/
def asked (lines : List (List UInt8)) : List (List Char) :=
  (((lines.map Utf8.decode?).takeWhile Option.isSome).filterMap id).filter fun text =>
    !(Text.trim text).isEmpty

/-- The id of the request on a line, or null if there is none. -/
def requestId (line : List Char) : Json := ((Request.parse? line).map Request.id).getD .null

/-- A line that spells a request is answered under the id of this request. -/
theorem requestId_of_isRequest {line : List Char} {v : Json} (h : Json.Spells line v)
    {request : Request} (hrequest : IsRequest v request) : requestId line = request.id := by
  rw [requestId, (Request.parse?_eq_some_iff h).mpr hrequest]
  rfl

/-- A line that spells anything else is answered under null. -/
theorem requestId_of_not_isRequest {line : List Char} {v : Json} (h : Json.Spells line v)
    (hnone : ∀ request, ¬ IsRequest v request) : requestId line = .null := by
  have hparse : Request.parse? line = none :=
    Option.eq_none_iff_forall_ne_some.mpr fun request hrequest =>
      hnone request ((Request.parse?_eq_some_iff h).mp hrequest)
  rw [requestId, hparse]
  rfl

/-- A text spells an object with the id of the request on a line and either a result or an error. -/
inductive Answers (line text : List Char) : Prop
  | result {value : Json}
      (hspelled : Json.Spells text (.obj [("id", requestId line), ("result", value)]))
  | error {message : String}
      (hspelled : Json.Spells text
        (.obj [("id", requestId line), ("error", .obj [("message", .str message)])]))

end Requests

section Responses

theorem handle_id (service : FormService τ) (request : Request) (s : τ) :
    (handle service request s).1.id = request.id := by
  unfold handle
  split <;> rfl

theorem answerLine_id (service : FormService τ) (line : List Char) (s : τ) :
    (answerLine service line s).1.id = requestId line := by
  unfold answerLine requestId
  cases Request.parse? line with
  | none => rfl
  | some request => exact handle_id service request s

/-- A response under the id of a request is an answer to it. -/
theorem Response.answers {line : List Char} {r : Response} (hsame : r.id = requestId line) :
    Answers line r.toJson.render := by
  have hspelled := Json.spells_render r.toJson
  obtain ⟨id, outcome⟩ := r
  obtain rfl : id = requestId line := hsame
  cases outcome with
  | ok value => exact .result hspelled
  | error message => exact .error hspelled

end Responses

section Serving

theorem isEmpty_trim (text : List Char) : (Text.trim text).isEmpty = isBlankLine text := by
  rw [Bool.eq_iff_iff, List.isEmpty_iff, Text.trim_eq_nil_iff, isBlankLine, List.all_eq_true]

theorem asked_cons_of_none {line : List UInt8} (hunread : Utf8.decode? line = none)
    (lines : List (List UInt8)) : asked (line :: lines) = [] := by
  simp [asked, hunread]

theorem asked_cons_of_some {line : List UInt8} {text : List Char}
    (hread : Utf8.decode? line = some text) (lines : List (List UInt8)) :
    asked (line :: lines) = if isBlankLine text then asked lines else text :: asked lines := by
  simp only [asked, List.map_cons, hread, List.takeWhile_cons, Option.isSome_some, if_true,
    List.filterMap_cons, id, List.filter_cons, isEmpty_trim, Bool.not_eq_true']
  cases isBlankLine text <;> rfl

section Steps

variable (service : FormService τ) {line : List UInt8} {text : List Char}
  (lines : List (List UInt8)) (s : τ)

theorem serveLines_cons_of_none (hunread : Utf8.decode? line = none) :
    serveLines service (line :: lines) s = ⟨[], .error .notUtf8, s⟩ := by
  rw [serveLines, hunread]

theorem serveLines_cons_of_blank (hread : Utf8.decode? line = some text)
    (hblank : isBlankLine text = true) :
    serveLines service (line :: lines) s = serveLines service lines s := by
  simp only [serveLines, hread, hblank, if_true]

theorem serveLines_cons_of_text (hread : Utf8.decode? line = some text)
    (hfilled : isBlankLine text = false) :
    serveLines service (line :: lines) s =
      { serveLines service lines (answerLine service text s).2 with
        responses := (answerLine service text s).1 ::
          (serveLines service lines (answerLine service text s).2).responses } := by
  simp only [serveLines, hread, hfilled, Bool.false_eq_true, if_false]

end Steps

/-- Each text that is asked has one response under its id, in their order. -/
theorem serveLines_responses (service : FormService τ) (lines : List (List UInt8)) (s : τ) :
    List.Forall₂ (fun text r => Response.id r = requestId text) (asked lines)
      (serveLines service lines s).responses := by
  induction lines generalizing s with
  | nil => exact .nil
  | cons line lines ih =>
      cases hread : Utf8.decode? line with
      | none =>
          rw [asked_cons_of_none hread, serveLines_cons_of_none service lines s hread]
          exact .nil
      | some text =>
          rw [asked_cons_of_some hread]
          cases hblank : isBlankLine text with
          | true =>
              rw [serveLines_cons_of_blank service lines s hread hblank, if_pos rfl]
              exact ih s
          | false =>
              rw [serveLines_cons_of_text service lines s hread hblank, if_neg Bool.false_ne_true]
              exact .cons (answerLine_id service text s) (ih _)

/-- Serving ends well when it has read all lines. -/
theorem serveLines_outcome (service : FormService τ) (lines : List (List UInt8)) (s : τ) :
    (serveLines service lines s).outcome = .ok () ↔
      ∀ line ∈ lines, (Utf8.decode? line).isSome := by
  induction lines generalizing s with
  | nil => simp [serveLines]
  | cons line lines ih =>
      rw [List.forall_mem_cons]
      cases hread : Utf8.decode? line with
      | none => simp [serveLines_cons_of_none service lines s hread]
      | some text =>
          rw [Option.isSome_some, eq_self, true_and]
          cases hblank : isBlankLine text with
          | true =>
              rw [serveLines_cons_of_blank service lines s hread hblank]
              exact ih s
          | false =>
              rw [serveLines_cons_of_text service lines s hread hblank]
              exact ih _

/-- Each text that is asked has one line that answers it, in their order. -/
theorem serve_lines (service : FormService τ) (input : List UInt8) (s : τ) :
    List.Forall₂ (fun text written => Answers text (String.toList written))
      (asked (Text.lines input)) (serve service input s).lines := by
  rw [Served.lines, List.forall₂_map_right_iff]
  refine (serveLines_responses service (Text.lines input) s).imp ?_
  intro text r hsame
  rw [Json.compact, String.toList_ofList]
  exact Response.answers hsame

end Serving

section Written

theorem octetsOf_endLines (texts : List String) :
    Utf8.octetsOf (CommandLine.endLines texts) =
      (texts.map Utf8.octetsOf).flatMap (· ++ [Text.lineFeed]) := by
  have hlineFeedOctets : Utf8.encodeChar '\n' = [Text.lineFeed] := rfl
  induction texts with
  | nil => rfl
  | cons text texts ih =>
      have hjoined : CommandLine.endLines (text :: texts) =
          text ++ "\n" ++ CommandLine.endLines texts := by
        simp [CommandLine.endLines]
      rw [hjoined, List.map_cons, List.flatMap_cons, ← ih]
      simp [Utf8.octetsOf_eq_encode, Utf8.encode, hlineFeedOctets]

theorem Response.no_lineFeed (r : Response) : '\n' ∉ r.toJson.compact.toList := by
  intro hmem
  rw [Json.compact, String.toList_ofList] at hmem
  have hprintable := (Json.spells_render r.toJson).isPrintable _ hmem
  exact absurd hprintable (by decide)

/-- The text of a response ends in a brace. -/
theorem Response.no_return (r : Response) :
    (Utf8.octetsOf r.toJson.compact).getLast? ≠ some Text.carriageReturn := by
  have hbrace : Utf8.encodeChar '}' = [125] := rfl
  rw [Utf8.octetsOf_eq_encode, Json.compact, String.toList_ofList, Response.toJson, Json.render_obj,
    ← List.cons_append, Utf8.encode, List.flatMap_append, List.flatMap_singleton, hbrace,
    List.getLast?_concat]
  decide

/-- What has been written is read back as its lines. -/
theorem lines_of_written (served : Served τ) :
    Text.lines (Utf8.octetsOf (CommandLine.endLines served.lines)) =
      served.lines.map Utf8.octetsOf := by
  rw [octetsOf_endLines]
  apply Text.lines_of_ended
  · simp only [Served.lines, List.forall_mem_map]
    intro r hmem
    rw [Utf8.lineFeed_mem_octetsOf_iff]
    exact r.no_lineFeed
  · simp only [Served.lines, List.forall_mem_map]
    intro r hmem
    exact r.no_return

/-- Every line with something on it before the first one that is not UTF-8 is answered by one line,
in their order. A service ends well exactly when all lines are UTF-8, and what it has written is
read back as the lines of its answers, none of which holds a line feed. -/
theorem serve_answers (service : FormService τ) (input : List UInt8) (s : τ) :
    ((serve service input s).outcome = .ok () ↔
      ∀ line ∈ Text.lines input, ∃ text, Utf8.octetsOf text = line) ∧
    List.Forall₂ (fun text written => Answers text (String.toList written))
      (asked (Text.lines input)) (serve service input s).lines ∧
    (∀ written ∈ (serve service input s).lines, '\n' ∉ written.toList) ∧
    Text.lines (Utf8.octetsOf (CommandLine.endLines (serve service input s).lines)) =
      (serve service input s).lines.map Utf8.octetsOf := by
  refine ⟨?_, serve_lines service input s, ?_, lines_of_written _⟩
  · simp only [← Utf8.isSome_decode?_iff]
    exact serveLines_outcome service (Text.lines input) s
  · simp only [Served.lines, List.forall_mem_map]
    intro r hmem
    exact r.no_lineFeed

end Written

end Rpc

end ManifestForm
