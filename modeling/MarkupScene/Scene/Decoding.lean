import MarkupScene.Json.Decode
import MarkupScene.Scene.Encoding

/-!
# Scenes from JSON

Decoding reads back what encoding writes, and more: fields in any order, records as arrays, and
absent options as null. A behavior is told by its `type`, which may stand anywhere in the object
or first in an array. To look for it the whole behavior is read ahead, so that no part of it may
be broken, and a name inside it may also be given as an object with an empty value.
-/
namespace MarkupScene

open Json Numeric

def Color.decode? (v : Value) : Option Color := do
  let [r, g, b, a] ← slots? ["r", "g", "b", "a"] v | none
  return ⟨← r.required Value.byte?, ← g.required Value.byte?, ← b.required Value.byte?,
    ← a.required Value.byte?⟩

def Point.decode? (v : Value) : Option Point := do
  let [x, y] ← slots? ["x", "y"] v | none
  return ⟨← x.required Value.single?, ← y.required Value.single?⟩

def Size.decode? (v : Value) : Option Size := do
  let [width, height] ← slots? ["width", "height"] v | none
  return ⟨← width.required Value.single?, ← height.required Value.single?⟩

def AssetRef.decode? (v : Value) : Option AssetRef := do
  let [path, frame] ← slots? ["path", "frame"] v | none
  return ⟨← path.required Value.text?, ← frame.optionalOrDefault Value.text?⟩

def PrefabRef.decode? (v : Value) : Option PrefabRef := do
  let [url] ← slots? ["url"] v | none
  return ⟨← url.required Value.text?⟩

/-- One of the names of an enumeration inside a behavior. -/
def nameIn? {α : Type} (choices : List (String × α)) : Decoder α :=
  Value.choice? Value.isEmptyOrNull choices

def Fill.decode? (v : Value) : Option Fill := do
  let [direction, start, range] ← slots? ["direction", "start", "range"] v | none
  return ⟨← direction.required (nameIn? Axis.choices), ← start.required Value.single?,
    ← range.required Value.single?⟩

namespace Behavior

def decodeSprite? (v : Value) : Option Sprite := do
  let [frame, sizeMode, kind, fill] ← slots? ["frame", "size_mode", "sprite_type", "fill"] v | none
  return {
    frame := ← frame.optional AssetRef.decode?
    sizeMode := ← sizeMode.required (nameIn? SizeMode.choices)
    kind := ← kind.required (nameIn? SpriteKind.choices)
    fill := ← fill.optional Fill.decode? }

def decodeLabel? (v : Value) : Option Label := do
  let [text, horizontalAlign, verticalAlign, fontSize, lineHeight, color, overflow, font, bold,
    italic] ← slots? ["text", "horizontal_align", "vertical_align", "font_size", "line_height",
      "color", "overflow", "font", "bold", "italic"] v | none
  return {
    text := ← text.required Value.text?
    horizontalAlign := ← horizontalAlign.required (nameIn? HorizontalAlign.choices)
    verticalAlign := ← verticalAlign.required (nameIn? VerticalAlign.choices)
    fontSize := ← fontSize.required Value.single?
    lineHeight := ← lineHeight.required Value.single?
    color := ← color.required Color.decode?
    overflow := ← overflow.required (nameIn? Overflow.choices)
    font := ← font.optional AssetRef.decode?
    bold := ← bold.required Value.bool?
    italic := ← italic.required Value.bool? }

def decodeScrollBar? (v : Value) : Option ScrollBar := do
  let [direction, handle, autoHide] ← slots? ["direction", "handle", "auto_hide"] v | none
  return {
    direction := ← direction.required (nameIn? Axis.choices)
    handle := ← handle.optional Value.text?
    autoHide := ← autoHide.required Value.bool? }

def decodeScrollView? (v : Value) : Option ScrollView := do
  let [horizontal, vertical, inertia, elastic, content, horizontalBar, verticalBar] ←
    slots? ["horizontal", "vertical", "inertia", "elastic", "content", "horizontal_scroll_bar",
      "vertical_scroll_bar"] v | none
  return {
    horizontal := ← horizontal.required Value.bool?
    vertical := ← vertical.required Value.bool?
    inertia := ← inertia.required Value.bool?
    elastic := ← elastic.required Value.bool?
    content := ← content.optional Value.text?
    horizontalScrollBar := ← horizontalBar.optional Value.text?
    verticalScrollBar := ← verticalBar.optional Value.text? }

def decodeMask? (v : Value) : Option Mask := do
  let [inverted] ← slots? ["inverted"] v | none
  return ⟨← inverted.required Value.bool?⟩

def decodeProgressBar? (v : Value) : Option ProgressBar := do
  let [mode, bar, totalLength, progress, reverse] ←
    slots? ["mode", "bar", "total_length", "progress", "reverse"] v | none
  return {
    mode := ← mode.required (nameIn? ProgressMode.choices)
    bar := ← bar.optional Value.text?
    totalLength := ← totalLength.required Value.single?
    progress := ← progress.required Value.single?
    reverse := ← reverse.required Value.bool? }

def decodeEditBox? (v : Value) : Option EditBox := do
  let [text, placeholder, fontSize, fontColor, placeholderFontSize, placeholderColor, background,
    maxLength, password] ← slots? ["text", "placeholder", "font_size", "font_color",
      "placeholder_font_size", "placeholder_color", "background", "max_length", "password"] v
    | none
  return {
    text := ← text.required Value.text?
    placeholder := ← placeholder.required Value.text?
    fontSize := ← fontSize.required Value.single?
    fontColor := ← fontColor.required Color.decode?
    placeholderFontSize := ← placeholderFontSize.required Value.single?
    placeholderColor := ← placeholderColor.required Color.decode?
    background := ← background.optional AssetRef.decode?
    maxLength := ← maxLength.required Value.word?
    password := ← password.required Value.bool? }

/-- The name of the kind and the record without it. -/
def tagged? : Value → Option (String × Value)
  | .object members =>
    match valuesOf members "type" with
    | [.text tag] => some (tag, .object (members.filter fun m => m.1 ≠ "type"))
    | _ => none
  | .array (.text tag :: rest) => some (tag, .array rest)
  | _ => none

def decodeAs? (tag : String) (v : Value) : Option Behavior :=
  match tag with
  | "Sprite" => (decodeSprite? v).map sprite
  | "Label" => (decodeLabel? v).map label
  | "ScrollBar" => (decodeScrollBar? v).map scrollBar
  | "ScrollView" => (decodeScrollView? v).map scrollView
  | "Mask" => (decodeMask? v).map mask
  | "ProgressBar" => (decodeProgressBar? v).map progressBar
  | "EditBox" => (decodeEditBox? v).map editBox
  | _ => none

def decode? (v : Value) : Option Behavior :=
  if v.isSound then (tagged? v).bind fun (tag, record) => decodeAs? tag record else none

end Behavior

def Constraint.decode? (v : Value) : Option Constraint := do
  let [alignLeft, alignRight, alignTop, alignBottom, alignHorizontalCenter, alignVerticalCenter,
    left, right, top, bottom] ← slots? ["align_left", "align_right", "align_top", "align_bottom",
      "align_horizontal_center", "align_vertical_center", "left", "right", "top", "bottom"] v
    | none
  return {
    alignLeft := ← alignLeft.required Value.bool?
    alignRight := ← alignRight.required Value.bool?
    alignTop := ← alignTop.required Value.bool?
    alignBottom := ← alignBottom.required Value.bool?
    alignHorizontalCenter := ← alignHorizontalCenter.required Value.bool?
    alignVerticalCenter := ← alignVerticalCenter.required Value.bool?
    left := ← left.required Value.single?
    right := ← right.required Value.single?
    top := ← top.required Value.single?
    bottom := ← bottom.required Value.single? }

namespace Node

/-- The fields of a node; the children come last. -/
def fieldNames : List String :=
  ["name", "widget", "size", "anchor", "position", "rotation", "scale_x", "scale_y", "opacity",
    "active", "width_percent", "height_percent", "skin", "constraint", "behaviors", "children"]

/-- Everything but the children, from the slots of all fields. -/
def decodeBody? : List Slot → Option Body
  | [name, widget, size, anchor, position, rotation, scaleX, scaleY, opacity, active,
      widthPercent, heightPercent, skin, constraint, behaviors, _] => do
    return {
      name := ← name.required Value.text?
      widget := ← widget.optionalOrDefault Value.text?
      size := ← size.required Size.decode?
      anchor := ← anchor.required Point.decode?
      position := ← position.required Point.decode?
      rotation := ← rotation.required Value.single?
      scaleX := ← scaleX.required Value.single?
      scaleY := ← scaleY.required Value.single?
      opacity := ← opacity.required Value.byte?
      active := ← active.required Value.bool?
      widthPercent := ← widthPercent.optionalOrDefault Value.single?
      heightPercent := ← heightPercent.optionalOrDefault Value.single?
      skin := ← skin.optionalOrDefault PrefabRef.decode?
      constraint := ← constraint.optionalOrDefault Constraint.decode?
      behaviors := ← behaviors.withDefault [] (Value.list? Behavior.decode?) }
  | _ => none

theorem sizeOf_child {v c : Value} {slots : List Slot} {items : List Value}
    (h : slots? fieldNames v = some slots) (hlast : slots.getLast? = some (.given (.array items)))
    (hc : c ∈ items) : sizeOf c < sizeOf v := by
  have h1 := sizeOf_of_slots? h (List.mem_of_getLast? hlast)
  have h2 := List.sizeOf_lt_of_mem hc
  simp only [Value.array.sizeOf_spec] at h1
  omega

def decode? (v : Value) : Option Node :=
  match h : slots? fieldNames v with
  | none => none
  | some slots =>
    match hlast : slots.getLast? with
    | some (.given (.array items)) => do
      let body ← decodeBody? slots
      let children ← items.attach.mapM fun ⟨c, hc⟩ =>
        have := sizeOf_child h hlast hc
        decode? c
      return ⟨body, children⟩
    | some (.given _) => none
    | _ => (decodeBody? slots).map fun body => ⟨body, []⟩
termination_by sizeOf v

end Node

end MarkupScene
