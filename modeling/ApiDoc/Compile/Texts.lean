import ApiDoc.Compile.Pass

/-!
# Editing the texts of a set

The summaries and descriptions of all files and elements can be edited in one go. Every new text
is computed from the set as it was; a state is handed from text to text, files first.
-/

namespace ApiDoc.Compile

/-- An edit of texts: from the place of a text, the text and the state so far to the new text and
the next state. -/
abbrev TextEdit (σ : Type) := Scope → String → σ → String × σ

variable {σ : Type}

structure NewTexts where
  summary : String
  description : String
deriving DecidableEq, Inhabited

/-- Edits a summary, then a description. -/
def editTexts (edit : TextEdit σ) (scope : Scope) (summary description : String) (state : σ) :
    NewTexts × σ :=
  let (newSummary, afterSummary) := edit scope summary state
  let (newDescription, afterBoth) := edit scope description afterSummary
  (⟨newSummary, newDescription⟩, afterBoth)

def editFiles (edit : TextEdit σ) (state : σ) : List File → List File × σ
  | [] => ([], state)
  | f :: rest =>
    let (texts, next) := editTexts edit (.ofFile f) f.summary f.description state
    let (others, last) := editFiles edit next rest
    ({ f with summary := texts.summary, description := texts.description } :: others, last)

def editElements (edit : TextEdit σ) (s : ApiSet) (state : σ) :
    List (ElementRef × Item) → List (ElementRef × NewTexts) × σ
  | [] => ([], state)
  | (ref, item) :: rest =>
    let (texts, next) :=
      editTexts edit (s.scopeOf ref) item.info.summary item.info.description state
    let (others, last) := editElements edit s next rest
    ((ref, texts) :: others, last)

def putTexts (s : ApiSet) (texts : List (ElementRef × NewTexts)) : ApiSet :=
  texts.foldl (fun s (ref, t) =>
    s.modifyInfo ref fun i => { i with summary := t.summary, description := t.description }) s

/-- The set with all texts edited, and the last state. -/
def editAllTextsWith (edit : TextEdit σ) (s : ApiSet) (state : σ) : ApiSet × σ :=
  let (files, next) := editFiles edit state s.files
  let (texts, last) := editElements edit s next s.present
  (putTexts { s with files := files } texts, last)

/-- The set with all texts edited, without a state. -/
def editAllTexts (edit : Scope → String → String) (s : ApiSet) : ApiSet :=
  (editAllTextsWith (fun scope text (_ : Unit) => (edit scope text, ())) s ()).1

end ApiDoc.Compile
