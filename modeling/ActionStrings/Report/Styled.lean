namespace ActionStrings.Report

inductive Style
  | bold
  | dim
  | red
  | green
  | yellow
  | blue
  | cyan
  | gray
deriving DecidableEq

def Style.code : Style → String
  | bold => "\x1b[1m"
  | dim => "\x1b[2m"
  | red => "\x1b[31m"
  | green => "\x1b[32m"
  | yellow => "\x1b[33m"
  | blue => "\x1b[34m"
  | cyan => "\x1b[36m"
  | gray => "\x1b[90m"

def reset : String := "\x1b[0m"

-- A piece of text under its styles, the outermost first.
structure Span where
  styles : List Style
  text : String

def plain (text : String) : Span := ⟨[],text⟩

def Span.render (colour : Bool) (span : Span) : String :=
  if colour then
    String.join (span.styles.map Style.code) ++ span.text ++ String.join (span.styles.map fun _ => reset)
  else span.text

abbrev Line := List Span

def Line.render (colour : Bool) (line : Line) : String :=
  String.join (line.map (Span.render colour)) ++ "\n"

def render (colour : Bool) (lines : List Line) : String := String.join (lines.map (Line.render colour))

-- A text between its code and a reset; several styles nest, the outermost first.
def painted (colour : Bool) (code text : String) : String :=
  if colour then code ++ text ++ "\x1b[0m" else text

@[simp] theorem painted_false (code text : String) : painted false code text = text := rfl

@[simp] theorem painted_true (code text : String) : painted true code text = code ++ text ++ "\x1b[0m" := rfl

def printed (lines : List String) : String := String.join (lines.map (· ++ "\n"))

def Span.shown (colour : Bool) (span : Span) : String :=
  span.styles.foldr (fun style text => painted colour style.code text) span.text

def Line.shown (colour : Bool) (line : Line) : String := String.join (line.map (Span.shown colour))

@[simp] theorem Line.shown_nil (colour : Bool) : Line.shown colour [] = "" := rfl

@[simp] theorem Line.shown_cons (colour : Bool) (span : Span) (line : Line) :
    Line.shown colour (span :: line) = span.shown colour ++ Line.shown colour line := by
  rw [Line.shown,List.map_cons,String.join_cons]
  rfl

theorem join_resets (n : Nat) :
    String.join (List.replicate n reset) ++ reset = reset ++ String.join (List.replicate n reset) := by
  rw [← String.join_cons,← List.replicate_succ,List.replicate_succ',String.join_append,String.join_cons,
    String.join_nil,String.append_empty]

theorem Span.render_eq (colour : Bool) (span : Span) : span.render colour = span.shown colour := by
  obtain ⟨styles,text⟩ := span
  cases colour with
  | false =>
    induction styles with
    | nil => rfl
    | cons style rest ih => exact ih
  | true =>
    induction styles with
    | nil => simp [Span.render,Span.shown]
    | cons style rest ih =>
      have inner : Span.shown true ⟨style :: rest,text⟩ = style.code ++ Span.shown true ⟨rest,text⟩ ++ reset := rfl
      rw [inner,← ih]
      simp only [Span.render,List.map_cons,List.map_const',String.join_cons,if_pos,String.append_assoc]
      rw [join_resets]

theorem Line.render_eq (colour : Bool) (line : Line) : line.render colour = line.shown colour ++ "\n" := by
  rw [Line.render,Line.shown,funext (Span.render_eq colour)]

theorem render_eq (colour : Bool) (lines : List Line) :
    render colour lines = printed (lines.map (Line.shown colour)) := by
  rw [render,printed,List.map_map,funext (Line.render_eq colour)]
  rfl

end ActionStrings.Report
