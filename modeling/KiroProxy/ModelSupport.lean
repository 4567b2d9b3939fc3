import KiroProxy.Text

/-!
# Models of a catalog

A credential may take a model when some form of its name is a form of a listed one: with a dot or
dashes in the version, with or without the date, with or without `-thinking`, and whatever the
context window.
-/

namespace KiroProxy.ModelSupport

def normalizeModelId (value : List Char) : Option (List Char) :=
  let value := trimChars value
  if value.isEmpty then none else some (value.map Char.toLower)

def normalizeSupportedModels (models : List (List Char)) : List (List Char) :=
  models.foldl (fun out model =>
    match normalizeModelId model with
    | none => out
    | some normalized => if out.contains normalized then out else out ++ [normalized]) []

def pushUniqueModel (out : List (List Char)) (model : List Char) : List (List Char) :=
  if (trimChars model).isEmpty then out
  else if out.contains model then out
  else out ++ [model]

def stripSuffix (suffix model : List Char) : Option (List Char) :=
  if suffix.isSuffixOf model then some (model.take (model.length - suffix.length)) else none

def thinking : List Char := "-thinking".toList

def splitSupportedModelSuffix (model : List Char) : List Char × Option (List Char) :=
  match stripSuffix thinking model with
  | some base => (base, some thinking)
  | none => (model, none)

def applySupportedModelSuffix (model : List Char) (suffix : Option (List Char)) : List Char :=
  match suffix with
  | some suffix => model ++ suffix
  | none => model

def allDigits (text : List Char) : Bool := text.all Char.isDigit

def isYyyymmdd (value : List Char) : Bool := utf8Length value = 8 && allDigits value

def splitOnce (c : Char) (text : List Char) : Option (List Char × List Char) :=
  if text.contains c then some (text.takeWhile (· ≠ c), (text.dropWhile (· ≠ c)).tail) else none

/-- The family, the two parts of the version and the date. -/
structure ModernClaudeModel where
  family : List Char
  major : List Char
  minor : Option (List Char)
  date : Option (List Char)

def parseModernClaudeModel : List (List Char) → Option ModernClaudeModel
  | first :: family :: version :: rest =>
    if first ≠ "claude".toList || !family.all Char.isLower then none
    else
      match splitOnce '.' version with
      | some (major, minor) =>
        if allDigits major && allDigits minor then some ⟨family, major, some minor, none⟩ else none
      | none =>
        if !allDigits version then none
        else
          match rest with
          | [] => some ⟨family, version, none, none⟩
          | [next] =>
            if isYyyymmdd next then some ⟨family, version, none, some next⟩
            else if allDigits next then some ⟨family, version, some next, none⟩
            else none
          | minor :: date :: _ =>
            if allDigits minor && isYyyymmdd date then
              some ⟨family, version, some minor, some date⟩
            else none
  | _ => none

def isLegacyFamily (family : List Char) : Bool :=
  family = "sonnet".toList || family = "haiku".toList

def parseLegacyClaude35Model (parts : List (List Char)) :
    Option (List Char × Option (List Char)) :=
  match parts with
  | first :: major :: minor :: rest =>
    if first ≠ "claude".toList then none
    else if major = "3.5".toList && isLegacyFamily minor then some (minor, none)
    else if major = "3".toList && minor = "5".toList then
      match rest with
      | family :: rest =>
        if isLegacyFamily family then some (family, rest.head?.filter isYyyymmdd) else none
      | [] => none
    else none
  | _ => none

def joined (parts : List (List Char)) : List Char := ['-'].intercalate parts

def claudeBaseModelVariants (model : List Char) : List (List Char) :=
  let parts := model.splitOn '-'
  let claude := "claude".toList
  match parseModernClaudeModel parts with
  | some ⟨family, major, minor, date⟩ =>
    let base := joined ([claude, family, major] ++ minor.toList)
    let out := match minor with
      | some minor =>
        pushUniqueModel (pushUniqueModel [] (joined [claude, family, major ++ '.' :: minor]))
          (joined [claude, family, major, minor])
      | none => []
    let out := pushUniqueModel out base
    match date with
    | some date => pushUniqueModel out (joined [base, date])
    | none => out
  | none =>
    match parseLegacyClaude35Model parts with
    | some (family, date) =>
      let out := pushUniqueModel (pushUniqueModel [] ("claude-3-5-".toList ++ family))
        ("claude-3.5-".toList ++ family)
      match date with
      | some date => pushUniqueModel out (joined ["claude-3-5-".toList ++ family, date])
      | none => out
    | none => []

def claudeModelVariants (model : List Char) : List (List Char) :=
  let (base, suffix) := splitSupportedModelSuffix model
  (claudeBaseModelVariants base).foldl
    (fun variants variant => pushUniqueModel variants (applySupportedModelSuffix variant suffix))
    (pushUniqueModel [] (applySupportedModelSuffix base suffix))

def expandClaudeSupportedModelVariants (models : List (List Char)) : List (List Char) :=
  models.foldl (fun out model =>
    match normalizeModelId model with
    | none => out
    | some model =>
      if "claude-".toList.isPrefixOf model then (claudeModelVariants model).foldl pushUniqueModel out
      else out) []

def stripContextWindowSuffix (model : List Char) : List Char :=
  match stripSuffix "[1m]".toList model with
  | some base => base
  | none =>
    match (stripSuffix thinking model).bind (stripSuffix "[1m]".toList) with
    | some base => base ++ thinking
    | none => model

/-- The variants before they are sorted. -/
def unsortedVariants (model : List Char) : List (List Char) :=
  let variants := expandClaudeSupportedModelVariants [model]
  let variants := match stripSuffix thinking model with
    | some base => variants ++ expandClaudeSupportedModelVariants [base]
    | none => variants ++ expandClaudeSupportedModelVariants [model ++ thinking]
  if variants.isEmpty then variants ++ [model] else variants

def supportMatchVariants (model : List Char) : List (List Char) :=
  ((unsortedVariants (stripContextWindowSuffix model)).mergeSort (· ≤ ·)).destutter (· ≠ ·)

def modelIsSupportedByList (models candidates : List (List Char)) : Bool :=
  if models.isEmpty then true
  else
    let supportedModels := (normalizeSupportedModels models).flatMap supportMatchVariants
    if supportedModels.isEmpty then false
    else
      candidates.any fun candidate =>
        match normalizeModelId candidate with
        | none => false
        | some model =>
          let candidateVariants := supportMatchVariants model
          supportedModels.any fun supported => candidateVariants.contains supported

end KiroProxy.ModelSupport
