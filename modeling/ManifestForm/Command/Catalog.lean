import ManifestForm.Command.Basic

/-! # The catalog of creation commands

What a form offers to build with `kubectl`.
-/

namespace ManifestForm.Catalog

/-- The one argument of a command, which is required. -/
def named (description : String) : Option (List CommandArgument) :=
  some [⟨"name", "Name", description, true⟩]

/-- An option with one value. -/
def single (type flag label description : String) : CommandOption :=
  ⟨flag, label, description, type, false, none, none⟩

/-- An option with any number of values, each behind a flag of its own. -/
def repeated (type flag label description : String) : CommandOption :=
  ⟨flag, label, description, type, true, some true, none⟩

/-- An option with any number of values behind one flag. -/
def joined (type flag label description : String) : CommandOption :=
  ⟨flag, label, description, type, true, some false, none⟩

/-- A flag that is off unless it is given. -/
def switch (flag label description : String) : CommandOption :=
  { single "boolean" flag label description with default := some (.flag false) }

/-- An option with a number, which is a whole one unless it is given. -/
def counted (default : Int) (flag label description : String) : CommandOption :=
  { single "number" flag label description with
    default := (Binary64.ofInt? default).map .number }

/-- An option with a text unless it is given. -/
def withText (default type flag label description : String) : CommandOption :=
  { single type flag label description with default := some (.text default) }

def leaf (name : String) (cli : List String) (args : Option (List CommandArgument))
    (options : List CommandOption) : Command :=
  ⟨name, args, some options, none, some cli⟩

def group (name : String) (commands : List Command) : Command :=
  ⟨name, none, none, some commands, none⟩

def configmap : Command :=
  leaf "configmap" ["kubectl", "create", "configmap"]
    (named "Name of the config map") [
      repeated "string" "--from-literal" "From literal"
        "Specify a key and literal value to insert in configmap (i.e. mykey=somevalue)",
      repeated "file" "--from-file" "From file"
        ("Key file can be specified using its file path, in which case file basename will be " ++
          "used as configmap key, or optionally with a key and file path, in which case the " ++
          "given key will be used."),
      repeated "file" "--from-env-file" "From env file"
        "Specify the path to a file to read lines of key=val pairs to create a configmap.",
      switch "--append-hash" "Append hash" "Append a hash of the configmap to its name."]

def deployment : Command :=
  leaf "deployment" ["kubectl", "create", "deployment"]
    (named "Name of the deployment") [
      repeated "string" "--image" "Image"
        "Image names to run. A deployment can have multiple images set for multi-container pod.",
      counted 1 "--replicas" "Replicas" "Number of replicas to create.",
      counted (-1) "--port" "Port" "The containerPort that this deployment exposes.",
      joined "string" "--" "Command" "Command to run in the container"]

def ingress : Command :=
  leaf "ingress" ["kubectl", "create", "ingress"]
    (named "Name of the ingress") [
      single "string" "--class" "Class" "Ingress Class to be used",
      repeated "string" "--rule" "Rules"
        ("Rule in format host/path=service:port[,tls=secretname]. Paths containing the leading " ++
          "character '*' are considered pathType=Prefix. tls argument is optional."),
      single "string" "--default-backend" "Default backend"
        "Default service for backend, in format of svcname:port",
      repeated "string" "--annotation" "Annotations"
        "Annotation to insert in the ingress object, in the format annotation=value"]

def pod : Command :=
  leaf "pod" ["kubectl", "run"]
    (named "Name of the pod") [
      single "string" "--image" "Image" "The image for the container to run.",
      counted (-1) "--port" "Port" "The port that this container exposes.",
      joined "string" "--labels" "Labels"
        "Comma separated labels to apply to the pod. Will override previous values.",
      repeated "string" "--env" "Environment" "Environment variables to set in the container.",
      single "string" "--restart" "Restart policy"
        "The restart policy for this Pod. Legal values [Always, OnFailure, Never].",
      joined "string" "--" "Command" "Command to run in the container"]

def secretDockerRegistry : Command :=
  leaf "docker-registry" ["kubectl", "create", "secret", "docker-registry"]
    (named "Name of the secret") [
      withText "https://index.docker.io/v1/" "string" "--docker-server" "Server"
        "Server location for Docker registry",
      single "string" "--docker-username" "Username" "Username for Docker registry authentication",
      single "string" "--docker-password" "Password" "Password for Docker registry authentication",
      single "string" "--docker-email" "Email" "Email for Docker registry",
      repeated "file" "--from-file" "From file"
        ("Key files can be specified using their file path, in which case a default name of " ++
          ".dockerconfigjson will be given to them, or optionally with a name and file path, in " ++
          "which case the given name will be used.")]

def secretGeneric : Command :=
  leaf "generic" ["kubectl", "create", "secret", "generic"]
    (named "Name of the secret") [
      repeated "string" "--from-literal" "From literal"
        "Specify a key and literal value to insert in secret (i.e. mykey=somevalue)",
      repeated "file" "--from-file" "From file"
        ("Key files can be specified using their file path, in which case a default name will " ++
          "be given to them, or optionally with a name and file path, in which case the given " ++
          "name will be used."),
      repeated "file" "--from-env-file" "From env file"
        "Specify the path to a file to read lines of key=val pairs to create a secret.",
      single "string" "--type" "Type" "The type of secret to create",
      switch "--append-hash" "Append hash" "Append a hash of the secret to its name."]

def secretTls : Command :=
  leaf "tls" ["kubectl", "create", "secret", "tls"]
    (named "Name of the secret") [
      single "file" "--cert" "Certificate" "Path to PEM encoded public key certificate.",
      single "file" "--key" "Key" "Path to private key associated with given certificate.",
      switch "--append-hash" "Append hash" "Append a hash of the secret to its name."]

def serviceClusterip : Command :=
  leaf "clusterip" ["kubectl", "create", "service", "clusterip"]
    (named "Name of the service") [
      joined "string" "--tcp" "TCP ports" "Port pairs can be specified as '<port>:<targetPort>'.",
      single "string" "--clusterip" "Cluster IP"
        "Assign your own ClusterIP or set to 'None' for a 'headless' service (no loadbalancing)."]

def serviceExternalname : Command :=
  leaf "externalname" ["kubectl", "create", "service", "externalname"]
    (named "Name of the service") [
      single "string" "--external-name" "External name" "External name of service",
      joined "string" "--tcp" "TCP ports" "Port pairs can be specified as '<port>:<targetPort>'."]

def serviceLoadbalancer : Command :=
  leaf "loadbalancer" ["kubectl", "create", "service", "loadbalancer"]
    (named "Name of the service") [
      joined "string" "--tcp" "TCP ports" "Port pairs can be specified as '<port>:<targetPort>'."]

def serviceNodeport : Command :=
  leaf "nodeport" ["kubectl", "create", "service", "nodeport"]
    (named "Name of the service") [
      joined "string" "--tcp" "TCP ports" "Port pairs can be specified as '<port>:<targetPort>'.",
      counted 0 "--node-port" "Node port"
        "Port used to expose the service on each node in a cluster."]

end ManifestForm.Catalog

namespace ManifestForm

open Catalog in
/-- All commands on offer. -/
def CommandTree.catalog : CommandTree :=
  ⟨[configmap, deployment, ingress, pod,
    group "secret" [secretDockerRegistry, secretGeneric, secretTls],
    group "service"
      [serviceClusterip, serviceExternalname, serviceLoadbalancer, serviceNodeport]]⟩

end ManifestForm
