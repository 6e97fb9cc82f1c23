import Blueprint.Document.Generic
import Blueprint.Text.Cut

/-!
The words of the blueprint language: its versions, the types of inputs, the built-in node and
relationship types, the functions that a value can call, and the names that replace older ones.
-/

namespace Blueprint.Vocabulary

def functions : List String :=
  ["merge", "concat", "get_sys", "get_input", "get_label", "get_secret", "string_find",
   "string_split", "string_lower", "string_upper", "get_property", "get_attribute",
   "string_replace", "get_capability", "get_environment_capability"]

def currentInputTypes : List String :=
  ["list", "dict", "regex", "float", "string", "integer", "boolean", "node_id", "textarea",
   "node_ids", "blueprint_id", "node_template", "deployment_id", "blueprint_ids",
   "operation_name", "deployment_ids", "capability_value", "node_instance_ids"]

/-- The versions whose input types are known, with these types. -/
def inputTypesByVersion : List (String × List String) :=
  [("nativeedge_1_0", currentInputTypes)]

/-- The version that knows fewer input types than later ones. -/
def restrictedVersion : String := "cloudify_dsl_1_3"

/-- Input types that the restricted version does not have. -/
def restrictedTypes : List String :=
  ["blueprint_id", "deployment_id", "capability_value", "scaling_group", "secret_key", "node_id",
   "node_type", "node_instance"]

def supportedVersions : List String :=
  ["cloudify_dsl_1_3", "cloudify_dsl_1_4", "cloudify_dsl_1_5", "nativeedge_1_0"]

/-- Node types that need no import. -/
def builtinNodeTypes : List String :=
  ["nativeedge.nodes.Port", "nativeedge.nodes.Root", "nativeedge.nodes.Tier",
   "nativeedge.nodes.Router", "nativeedge.nodes.Subnet", "nativeedge.nodes.Volume",
   "nativeedge.nodes.Network", "nativeedge.nodes.Compute", "nativeedge.nodes.Container",
   "nativeedge.nodes.VirtualIP", "nativeedge.nodes.FileSystem", "nativeedge.nodes.ObjectStorage",
   "nativeedge.nodes.LoadBalancer", "nativeedge.nodes.SecurityGroup",
   "nativeedge.nodes.SoftwareComponent", "nativeedge.nodes.DBMS", "nativeedge.nodes.Database",
   "nativeedge.nodes.WebServer", "nativeedge.nodes.ApplicationServer",
   "nativeedge.nodes.MessageBusServer", "nativeedge.nodes.ApplicationModule",
   "nativeedge.nodes.CloudifyManager", "nativeedge.nodes.Component",
   "nativeedge.nodes.ServiceComponent", "nativeedge.nodes.SharedResource",
   "nativeedge.nodes.Blueprint", "nativeedge.nodes.PasswordSecret"]

/-- Relationship types that need no import. -/
def builtinRelationships : List String :=
  ["nativeedge.relationships.depends_on", "nativeedge.relationships.connected_to",
   "nativeedge.relationships.contained_in",
   "nativeedge.relationships.depends_on_lifecycle_operation",
   "nativeedge.relationships.depends_on_shared_resource",
   "nativeedge.relationships.connected_to_shared_resource",
   "nativeedge.relationships.file_system_depends_on_volume",
   "nativeedge.relationships.file_system_contained_in_compute"]

/-- Providers whose types have kept their names. -/
def providers : List String :=
  ["azure", "gcp", "openstack", "vsphere"]

/-- Node types that have got a name of their own. -/
def movedNodeTypes : List (String × String) :=
  [("cloudify.openstack.nodes.Routes", "nativeedge.nodes.openstack.Router"),
   ("cloudify.gcp.nodes.Imagev", "nativeedge.nodes.gcp.Image")]

def olderStart : String := "cloudify."
def currentStart : String := "nativeedge."

/-- What follows `start` in a name. -/
def after? (start name : String) : Option String :=
  (Text.after? start.toList name.toList).map String.ofList

def inputTypesOf? (version : String) : Option (List String) :=
  inputTypesByVersion.lookup version

def versionsWithInputTypes : String :=
  ", ".intercalate (inputTypesByVersion.map (·.1))

def isOlderVersion (version : Option String) : Bool :=
  version.any (·.startsWith "cloudify_dsl")

/-- Whether a name belongs to the older names. -/
def isOlder (name : String) : Bool :=
  name.startsWith olderStart

def newNodeType? (name : String) : Option String :=
  match movedNodeTypes.lookup name with
  | some new => some new
  | none =>
    (after? olderStart name).bind fun rest =>
      match after? "openstack.nova_net.nodes." rest with
      | some kind => some ("nativeedge.nodes.openstack." ++ kind)
      | none =>
        let ofProvider? (provider : String) : Option String :=
          (after? (provider ++ ".nodes.") rest).map fun kind =>
            "nativeedge.nodes." ++ provider ++ "." ++ kind
        match providers.findSome? ofProvider? with
        | some new => some new
        | none => some (currentStart ++ rest) |>.filter builtinNodeTypes.contains

def newRelationship? (name : String) : Option String :=
  (after? olderStart name).bind fun rest =>
    let ofProvider? (provider : String) : Option String :=
      (after? (provider ++ ".relationships.") rest).map fun kind =>
        "nativeedge.relationships." ++ provider ++ "." ++ kind
    match providers.findSome? ofProvider? with
    | some new => some new
    | none =>
      match after? "openstack." rest with
      | some kind => some ("nativeedge.relationships.openstack." ++ kind)
      | none => some (currentStart ++ rest) |>.filter builtinRelationships.contains

def newInterface? (name : String) : Option String :=
  (after? olderStart name).map (currentStart ++ ·)

/-- The function that a value calls, with its argument: the only field of the value. -/
def call? : Generic → Option (String × Generic)
  | .dict [(name, argument)] => if functions.contains name then some (name, argument) else none
  | _ => none

/-- The kind of a value, as messages name it. -/
def kindName : Generic → String
  | .null => "null"
  | .bool _ => "bool"
  | .int _ => "int"
  | .float _ => "float"
  | .text _ => "str"
  | .list _ => "list"
  | .dict _ => "dict"

/-- Names in brackets. -/
def inBrackets (names : List String) : String :=
  "[" ++ ", ".intercalate names ++ "]"

end Blueprint.Vocabulary
